/-
  Aesd.Driver.System

  The device as its users see it: one device, any number of open files, and
  calls that arrive in any order.  `step` runs the driver's code on one call,
  `absStep` the abstract device; `run_refines` and `run_defined` relate their
  whole runs in both directions.

  A file starts at position 0 (`aesd_open` stores no position) and only its
  own calls move it.
-/
import Aesd.Lib.Run
import Aesd.Driver.Refinement

namespace Aesd.Driver

open Aesd.Lib

/-- An open file. -/
abbrev File := Nat

inductive Request where
  | read (f : File) (count : RwCount)
  | write (f : File) (buf : UserBuf)
  | llseek (f : File) (offset whence : Int)
  | ioctl (f : File) (cmd : UInt32) (arg : AesdSeekto)

/-- The file a request is made on. -/
def Request.file : Request → File
  | .read f _ => f
  | .write f _ => f
  | .llseek f _ _ => f
  | .ioctl f _ _ => f

/-- A call: what is asked for and what it meets. -/
structure Call where
  request : Request
  env : CallEnv

/-- The return value, and the bytes stored in the caller's buffer. -/
structure Answer where
  ret : Int
  data : List Byte
  deriving DecidableEq, Repr

/-- The device and the position of every open file. -/
structure System where
  driver : DriverState
  fPos : File → Int

/-- The freshly loaded module. -/
def System.init : System := ⟨aesdInitModule, fun _ => 0⟩

def setPos (fPos : File → Int) (f : File) (p : Int) : File → Int := Function.update fPos f p

/-- One call, by the code of the driver. -/
def step (K : Kernel) (s : System) (c : Call) : Option (Answer × System) :=
  match c.request with
  | .read f count =>
    (aesdRead c.env s.driver count.val (s.fPos f)).map fun r =>
      (⟨r.1.ret, r.1.data⟩, ⟨r.2, setPos s.fPos f r.1.fPos⟩)
  | .write _ buf =>
    -- `aesd_write` is given `f_pos` but neither reads nor stores it
    (aesdWrite K c.env s.driver buf.val).map fun r => (⟨r.1, []⟩, ⟨r.2, s.fPos⟩)
  | .llseek f offset whence =>
    (aesdLlseek c.env s.driver (s.fPos f) offset whence).map fun r =>
      (⟨r.1.ret, []⟩, ⟨r.2, setPos s.fPos f r.1.fPos⟩)
  | .ioctl f cmd arg =>
    (aesdUnlockedIoctl c.env s.driver (s.fPos f) cmd arg).map fun r =>
      (⟨r.1.ret, []⟩, ⟨r.2, setPos s.fPos f r.1.fPos⟩)

/-! ## The abstract system -/

/-- The journal and the position of every open file. -/
structure AbsSystem where
  journal : Journal Byte
  fPos : File → Int

def AbsSystem.init : AbsSystem := ⟨.empty, fun _ => 0⟩

/-- One call, on the abstract device. -/
def absStep (K : Kernel) (a : AbsSystem) (c : Call) : Answer × AbsSystem :=
  match c.request with
  | .read f count =>
    let r := absRead c.env a.journal count.val (a.fPos f)
    (⟨r.ret, r.data⟩, ⟨a.journal, setPos a.fPos f r.fPos⟩)
  | .write _ buf =>
    (⟨absWriteRet K c.env a.journal buf.val, []⟩,
      ⟨absWriteNext isNewline K c.env a.journal buf.val, a.fPos⟩)
  | .llseek f offset whence =>
    let r := absLlseek c.env a.journal (a.fPos f) offset whence
    (⟨r.ret, []⟩, ⟨a.journal, setPos a.fPos f r.fPos⟩)
  | .ioctl f cmd arg =>
    let r := absIoctl c.env a.journal (a.fPos f) cmd arg
    (⟨r.ret, []⟩, ⟨a.journal, setPos a.fPos f r.fPos⟩)

/-- The call has a defined result: it is not a write without a last byte. -/
def Defined (K : Kernel) (a : AbsSystem) (c : Call) : Prop :=
  match c.request with
  | .write _ buf => ¬ NoLastByte K c.env a.journal buf.val
  | _ => True

/-- The abstract state after a list of calls. -/
def absAfter (K : Kernel) (calls : List Call) : AbsSystem :=
  (absRun (absStep K) .init calls).2

/-! ## Positions stay positions -/

/-- `p` is a valid `loff_t` position. -/
def IsPos (p : Int) : Prop := 0 ≤ p ∧ p < 2 ^ 63

theorem toLoff_lt (x : Int) : toLoff x < 2 ^ 63 := by
  unfold toLoff
  have hlt := Int.bmod_lt (x := x) (m := 2 ^ 64) (Nat.pow_pos (by decide))
  have hcast : ((2 ^ 64 : Nat) : Int) = 2 ^ 64 := Int.natCast_pow 2 64
  rw [hcast] at hlt
  omega

theorem absRead_isPos {K : Kernel} {s : DriverState} {J : Journal Byte} (hR : Rep K s J)
    (env : CallEnv) (count : Nat) {fPos : Int} (hpos : IsPos fPos) :
    IsPos (absRead env J count fPos).fPos := by
  obtain ⟨es, ws, h⟩ := hR
  obtain ⟨h0, hlt⟩ := hpos
  have hsmall := h.content_small
  have hlen : fPos + ((visible J fPos.toNat).take count).length < 2 ^ 63 := by
    obtain ⟨later, hlater⟩ := visible_append J fPos.toNat
    have hdrop := congrArg List.length hlater
    rw [List.length_append, List.length_drop] at hdrop
    rw [List.length_take]
    omega
  rw [absRead]
  by_cases hint : env.interrupted = true
  · rw [if_pos hint]
    exact ⟨h0, hlt⟩
  · rw [if_neg hint]
    dsimp only
    split
    · exact ⟨h0, hlt⟩
    · exact ⟨by dsimp only; omega, hlen⟩

theorem absLlseek_isPos (env : CallEnv) (J : Journal Byte) {fPos : Int} (hpos : IsPos fPos)
    (offset whence : Int) : IsPos (absLlseek env J fPos offset whence).fPos := by
  have hlt : ∀ newpos, absLlseekTarget J fPos (toLoff offset) whence = some newpos →
      newpos < 2 ^ 63 := by
    intro newpos h
    unfold absLlseekTarget at h
    split at h
    · exact Option.some.inj h ▸ toLoff_lt _
    · split at h
      · exact Option.some.inj h ▸ toLoff_lt _
      · split at h
        · exact Option.some.inj h ▸ toLoff_lt _
        · cases h
  unfold absLlseek
  split
  · exact hpos
  · cases h : absLlseekTarget J fPos (toLoff offset) whence with
    | none => exact hpos
    | some newpos =>
      dsimp only
      split
      · exact hpos
      · exact ⟨by dsimp only; omega, hlt newpos h⟩

/-- A seek request in range points into the readable bytes. -/
theorem absSeekto_lt {α : Type _} {J : Journal α} {w o p : Nat} (h : absSeekto J w o = some p) :
    p < (content J).length := by
  unfold absSeekto at h
  cases hw : (committed J)[w]? with
  | none => rw [hw] at h; cases h
  | some e =>
    rw [hw] at h
    dsimp only at h
    split at h
    · cases h
    · obtain rfl := Option.some.inj h
      -- the position is that of a byte of entry `w`, and all of that entry is readable
      obtain ⟨hlt, rfl⟩ := List.getElem?_eq_some_iff.mp hw
      rw [content]
      conv_rhs => rw [← List.take_append_drop w (committed J), List.drop_eq_getElem_cons hlt]
      rw [List.flatten_append, List.length_append, List.flatten_cons, List.length_append]
      omega

theorem absIoctl_isPos {K : Kernel} {s : DriverState} {J : Journal Byte} (hR : Rep K s J)
    (env : CallEnv) {fPos : Int} (hpos : IsPos fPos) (cmd : UInt32) (arg : AesdSeekto) :
    IsPos (absIoctl env J fPos cmd arg).fPos := by
  obtain ⟨es, ws, h⟩ := hR
  have hsmall := h.content_small
  unfold absIoctl
  split
  · exact hpos
  · split
    · cases ht : absSeekto J arg.writeCmd.toNat arg.writeCmdOffset.toNat with
      | none => exact hpos
      | some p =>
        have hlt := absSeekto_lt ht
        exact ⟨by dsimp only; omega, by dsimp only; omega⟩
    · exact hpos

/-! ## Refinement of single calls -/

/-- The system stands for the abstract one. -/
structure SystemRep (K : Kernel) (s : System) (a : AbsSystem) : Prop where
  driver : Rep K s.driver a.journal
  fPos_eq : s.fPos = a.fPos
  isPos : ∀ f, IsPos (a.fPos f)

theorem systemRep_init (K : Kernel) : SystemRep K .init .init :=
  { driver := rep_init K
    fPos_eq := rfl
    isPos := fun _ => ⟨Int.le_refl 0, Int.pow_pos (by decide)⟩ }

theorem SystemRep.setPos {K : Kernel} {s : System} {a : AbsSystem} (h : SystemRep K s a)
    (f : File) {p : Int} (hp : IsPos p) :
    SystemRep K ⟨s.driver, setPos s.fPos f p⟩ ⟨a.journal, setPos a.fPos f p⟩ :=
  { driver := h.driver
    fPos_eq := by rw [h.fPos_eq]
    isPos := by
      intro g
      show IsPos (Function.update a.fPos f p g)
      -- only the position of `f` is a new one
      by_cases hg : g = f
      · rw [hg, Function.update_self]
        exact hp
      · rw [Function.update_of_ne hg]
        exact h.isPos g }

/-- A defined call answers what the abstract device answers. -/
theorem step_refines {K : Kernel} {s : System} {a : AbsSystem} (c : Call)
    (h : SystemRep K s a) (hdef : Defined K a c) :
    ∃ s', step K s c = some ((absStep K a c).1, s') ∧ SystemRep K s' (absStep K a c).2 := by
  obtain ⟨request, env⟩ := c
  cases request with
  | read f count =>
    have hpos := h.isPos f
    have hread := aesdRead_refines env h.driver count.val hpos.1 hpos.2
    refine ⟨_, ?_, h.setPos f (absRead_isPos h.driver env count.val hpos)⟩
    simp only [step, absStep, h.fPos_eq, hread, Option.map_some]
  | write f buf =>
    obtain ⟨s', hwrite, hrep⟩ := aesdWrite_refines env h.driver buf.property hdef
    refine ⟨⟨s', s.fPos⟩, ?_, { driver := hrep, fPos_eq := h.fPos_eq, isPos := h.isPos }⟩
    simp only [step, absStep, hwrite, Option.map_some]
  | llseek f offset whence =>
    have hseek := aesdLlseek_refines env h.driver (a.fPos f) offset whence
    refine ⟨_, ?_, h.setPos f (absLlseek_isPos env a.journal (h.isPos f) offset whence)⟩
    simp only [step, absStep, h.fPos_eq, hseek, Option.map_some]
  | ioctl f cmd arg =>
    have hioctl := aesdUnlockedIoctl_refines env h.driver (a.fPos f) cmd arg
    refine ⟨_, ?_, h.setPos f (absIoctl_isPos h.driver env (h.isPos f) cmd arg)⟩
    simp only [step, absStep, h.fPos_eq, hioctl, Option.map_some]

/-- A call without a defined result has none in the code either. -/
theorem step_undefined {K : Kernel} {s : System} {a : AbsSystem} (c : Call)
    (h : SystemRep K s a) (hdef : ¬ Defined K a c) : step K s c = none := by
  obtain ⟨request, env⟩ := c
  cases request with
  | write f buf =>
    have hno : NoLastByte K env a.journal buf.val := Classical.not_not.mp hdef
    simp only [step, aesdWrite_undefined h.driver hno, Option.map_none]
  | read f count => exact absurd trivial hdef
  | llseek f offset whence => exact absurd trivial hdef
  | ioctl f cmd arg => exact absurd trivial hdef

/-! ## Refinement of whole runs -/

/-- A call that has a result is defined, and has the abstract one. -/
theorem step_follows {K : Kernel} {s s' : System} {a : AbsSystem} {c : Call} {o : Answer}
    (h : SystemRep K s a) (hstep : step K s c = some (o, s')) :
    Defined K a c ∧ o = (absStep K a c).1 ∧ SystemRep K s' (absStep K a c).2 := by
  by_cases hdef : Defined K a c
  · obtain ⟨t, heq, hrep⟩ := step_refines c h hdef
    obtain ⟨rfl, rfl⟩ := Prod.mk.inj (Option.some.inj (hstep.symm.trans heq))
    exact ⟨hdef, rfl, hrep⟩
  · rw [step_undefined c h hdef] at hstep
    cases hstep

/-- Every defined run gives the abstract answers and ends in a state that
    stands for the abstract one. -/
theorem run_follows {K : Kernel} {calls : List Call} {outs : List Answer} {s t : System}
    {a : AbsSystem} (h : SystemRep K s a) (hrun : run (step K) s calls = some (outs, t)) :
    Allowed (absStep K) (Defined K) a calls ∧
      outs = (absRun (absStep K) a calls).1 ∧ SystemRep K t (absRun (absStep K) a calls).2 :=
  run_lockstep (fun _ _ c h hdef => step_refines c h hdef)
    (fun _ _ c h hdef => step_undefined c h hdef) h hrun

/-- The same from the freshly loaded module. -/
theorem run_refines {K : Kernel} {calls : List Call} {outs : List Answer} {s : System}
    (hrun : run (step K) .init calls = some (outs, s)) :
    Allowed (absStep K) (Defined K) .init calls ∧
      outs = (absRun (absStep K) .init calls).1 ∧ SystemRep K s (absAfter K calls) :=
  run_follows (systemRep_init K) hrun

/-- Calls that never meet a write without a last byte have a defined run. -/
theorem run_defined {K : Kernel} {calls : List Call}
    (hall : Allowed (absStep K) (Defined K) .init calls) :
    ∃ s, run (step K) .init calls = some ((absRun (absStep K) .init calls).1, s) ∧
      SystemRep K s (absAfter K calls) :=
  run_total (fun _ _ c h hdef => step_refines c h hdef) (systemRep_init K) hall

end Aesd.Driver
