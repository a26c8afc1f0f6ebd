/-
  Aesd.Driver.Concurrent

  Any number of threads in the driver at once, each at its own statement.  The
  device mutex makes of their calls what `Driver.System` takes for granted:
  one call after the other.  So what has been proved about the runs of whole
  calls holds of the calls of concurrent threads, in the order in which they
  give the mutex back.

  The mutex does not cover the copy of the position that the kernel passes to
  a read or a write.  Calls that overlap on one open file can lose a move of
  its position; with one call at a time on each file the system calls are
  linearizable (`driver_linearizable`).
-/
import Mathlib.Data.Fintype.Basic
import Aesd.Driver.Syscalls

namespace Aesd.Driver

open Aesd.Lib

variable {τ : Type}

/-- Threads that make calls of the driver. -/
abbrev Callers (τ : Type) := Monitor.State τ System (Caller System Call Answer)

/-- The freshly loaded module, with no thread in a call. -/
def Callers.init : Callers τ := ⟨none, .init, fun _ => none⟩

/-- The next statement of one thread, in the functions of the driver. -/
def statement [DecidableEq τ] (K : Kernel) :
    Callers τ → τ × CallEvent Call → Option ((τ × Option (Call × Answer)) × Callers τ) :=
  Monitor.step (callers (callCode K))

/-- The code of a call in one step is the step of the system. -/
theorem atomically_callCode (K : Kernel) : atomically (callCode K) = step K := by
  funext s c
  exact exec_callCode K s c

theorem settled_init (K : Kernel) : Settled (callCode K) .init (Callers.init : Callers τ) :=
  settled_start _ _

variable [DecidableEq τ]

/-- The calls completed in a concurrent run are a run of the system. -/
theorem statements_in_line {K : Kernel} {xs : List (τ × CallEvent Call)}
    {os : List (τ × Option (Call × Answer))} {s : Callers τ}
    (hrun : run (statement K) .init xs = some (os, s)) :
    ∃ s₁, run (step K) .init ((completed os).map Prod.fst) =
        some ((completed os).map Prod.snd, s₁) ∧ Settled (callCode K) s₁ s := by
  obtain ⟨s₁, hline, hs⟩ := linearizable (guarded_callCode K) (settled_init K) hrun
  rw [InLine, atomically_callCode] at hline
  exact ⟨s₁, hline, hs⟩

/-- The next statement of one thread, in its system call. -/
def syscallStatement (K : Kernel) :
    Callers τ → τ × CallEvent Call → Option ((τ × Option (Call × Answer)) × Callers τ) :=
  Monitor.step (callers (syscallCode K))

/-- A call is made on an open file on which no other is under way. -/
def AloneOnFile (s : Callers τ) (x : τ × CallEvent Call) : Prop :=
  ∀ c, x.2 = .call c → ∀ u d code, s.locals u = some (d, code) → d.request.file ≠ c.request.file

instance [Fintype τ] (s : Callers τ) : ∀ x, Decidable (AloneOnFile s x)
  | (_, .go) => .isTrue fun c h => by cases h
  | (_, .call c) =>
    decidable_of_iff
      (∀ u, (s.locals u).all (fun w => decide (w.1.request.file ≠ c.request.file)) = true) <| by
        simp only [AloneOnFile, CallEvent.call.injEq, forall_eq', Option.all_eq_true,
          decide_eq_true_eq, Prod.forall]

/-- Threads that make system calls, statement by statement in any interleaving, with any
    failures, and one call at a time on each open file.  The calls take effect one by one, each
    at a moment between its beginning and its answer; in the order of these moments they are
    defined calls of the abstract device and are given its answers.  With nobody in a call the
    device and the positions stand for the abstract ones. -/
theorem driver_linearizable {K : Kernel} {xs : List (τ × CallEvent Call)}
    {os : List (τ × Option (Call × Answer))} {s : Callers τ}
    (hrun : run (syscallStatement K) .init xs = some (os, s))
    (hone : Meets (syscallStatement K) AloneOnFile .init xs) :
    ∃ h phases, Orderly h phases ∧ observed h = history xs os ∧
      Allowed (absStep K) (Defined K) .init ((effects h).map Prod.fst) ∧
      (effects h).map Prod.snd = (absRun (absStep K) .init ((effects h).map Prod.fst)).1 ∧
      ((∀ t, s.locals t = none) →
        SystemRep K s.shared (absAfter K ((effects h).map Prod.fst))) := by
  obtain ⟨h, phases, s₁, horderly, hseen, hline, hshared⟩ :=
    copies_linearizable (M := fileOperations K) (guarded_callCode K) hrun hone
  have hcalls : run (step K) .init ((effects h).map Prod.fst) =
      some ((effects h).map Prod.snd, s₁) := by
    rw [← atomically_callCode]
    exact hline
  obtain ⟨hall, houts, hrep⟩ := run_refines hcalls
  refine ⟨h, phases, horderly, hseen, hall, houts, fun hidle => ?_⟩
  rw [hshared hidle]
  exact hrep

/-- A reader comes while a line is being written, and has its copy of the position before the
    writer gives the mutex back; it is answered before the writer. -/
def readWithin : List (Fin 2 × CallEvent Call) :=
  [(0, .call ⟨.write 0 (vfsBuf [97, newline]), .calm⟩), (0, .go), (0, .go), (0, .go),
    (1, .call ⟨.read 1 (vfsCount 8), .calm⟩), (1, .go)] ++
    List.replicate 10 (0, .go) ++ List.replicate 10 (1, .go) ++ [(0, .go)]

/-- It reads the line all the same. -/
theorem readWithin_linearizable :
    ∃ os s, run (syscallStatement .page) .init readWithin = some (os, s) ∧
      (completed os).map Prod.snd = [⟨2, [97, newline]⟩, ⟨2, []⟩] ∧
      s.locals 0 = none ∧ s.locals 1 = none ∧
      ∃ h phases, Orderly h phases ∧ observed h = history readWithin os ∧
        Allowed (absStep .page) (Defined .page) .init ((effects h).map Prod.fst) ∧
        (effects h).map Prod.snd =
          (absRun (absStep .page) .init ((effects h).map Prod.fst)).1 ∧
        SystemRep .page s.shared (absAfter .page ((effects h).map Prod.fst)) := by
  have hmap : (run (syscallStatement .page) .init readWithin).map (fun x =>
      ((x.2.locals 0).isNone, (x.2.locals 1).isNone, (completed x.1).map Prod.snd)) =
        some (true, true, [⟨2, [97, newline]⟩, ⟨2, []⟩]) := by decide
  have hone : Meets (syscallStatement .page) AloneOnFile (.init : Callers (Fin 2)) readWithin := by
    decide
  obtain ⟨⟨os, s⟩, hrun, heq⟩ := Option.map_eq_some_iff.mp hmap
  obtain ⟨h0, heq⟩ := Prod.mk.inj heq
  obtain ⟨h1, houts⟩ := Prod.mk.inj heq
  have hidle : ∀ t, s.locals t = none :=
    Fin.forall_fin_two.mpr ⟨Option.isNone_iff_eq_none.mp h0, Option.isNone_iff_eq_none.mp h1⟩
  obtain ⟨h, phases, horderly, hseen, hall, habs, hrep⟩ := driver_linearizable hrun hone
  exact ⟨os, s, hrun, houts, hidle 0, hidle 1, h, phases, horderly, hseen, hall, habs,
    hrep hidle⟩

/-- Two reads of one open file overlap and both get the line: the second copy of the position
    was taken before the first was stored. -/
example : (run (syscallStatement .page) (Callers.init : Callers (Fin 2))
    ([(0, .call ⟨.write 0 (vfsBuf [97, newline]), .calm⟩)] ++ List.replicate 14 (0, .go) ++
      [(0, .call ⟨.read 0 (vfsCount 8), .calm⟩), (0, .go),
        (1, .call ⟨.read 0 (vfsCount 8), .calm⟩), (1, .go)] ++
      List.replicate 10 (0, .go) ++ List.replicate 10 (1, .go))).map
        (fun x => (completed x.1).map Prod.snd) =
      some [⟨2, []⟩, ⟨2, [97, newline]⟩, ⟨2, [97, newline]⟩] := by decide

/-- The call is not a write of no bytes. -/
def Request.NonEmpty : Request → Prop
  | .write _ buf => buf.val ≠ []
  | _ => True

theorem defined_of_nonEmpty (K : Kernel) (a : AbsSystem) {c : Call} (h : c.request.NonEmpty) :
    Defined K a c := by
  obtain ⟨request, env⟩ := c
  cases request with
  | write f buf => exact fun hlast => h hlast.2.1
  | read f count => trivial
  | llseek f offset whence => trivial
  | ioctl f cmd arg => trivial

/-- As long as nobody writes nothing, no thread is ever stuck in the driver: one that is in a
    call can take its next statement, or another has the mutex; and whoever has it
    completes its call by its own statements and gives it back. -/
theorem driver_goes_on {K : Kernel} {xs : List (τ × CallEvent Call)}
    {os : List (τ × Option (Call × Answer))} {s : Callers τ}
    (hrun : run (statement K) .init xs = some (os, s))
    (hcalls : ∀ x ∈ xs, ∀ c, x.2 = .call c → c.request.NonEmpty) :
    (∀ t, s.locals t ≠ none → ∃ u, (u = t ∨ s.owner = some u) ∧
      (statement K s (u, .go)).isSome = true) ∧
      ∀ t, s.owner = some t → ∃ n os' s', run (statement K) s (List.replicate n (t, .go)) =
        some (os', s') ∧ s'.owner = none := by
  obtain ⟨s₁, hline, hs⟩ := statements_in_line hrun
  obtain ⟨-, -, hrep⟩ := run_refines hline
  -- every call under way has a result on what the completed ones have left
  have hdef : ∀ u c rest, s.locals u = some (c, rest) →
      (atomically (callCode K) s₁ c).isSome = true := by
    intro u c rest heq
    have hne : c.request.NonEmpty :=
      calls_of_run (P := fun c => c.request.NonEmpty) hcalls (fun _ _ _ h => by cases h) hrun u c
        rest heq
    obtain ⟨s', hstep, -⟩ := step_refines c hrep (defined_of_nonEmpty K _ hne)
    rw [atomically_callCode, hstep]
    rfl
  exact ⟨fun t hbusy => hs.progress (guarded_callCode K) hdef hbusy,
    fun t hown => hs.finishes hown fun c rest heq => hdef t c rest heq⟩

/-- A reader comes while a line is being written. -/
def lineBegun : List (Fin 2 × CallEvent Call) :=
  [(0, .call ⟨.write 0 (vfsBuf [97, newline]), .calm⟩), (0, .go), (0, .go),
    (1, .call ⟨.read 1 (vfsCount 8), .calm⟩)]

/-- It waits for the writer, and the writer completes its call. -/
theorem lineBegun_goes_on :
    ∃ os s, run (statement .page) .init lineBegun = some (os, s) ∧
      (∃ u, (u = 1 ∨ s.owner = some u) ∧ (statement .page s (u, .go)).isSome = true) ∧
      ∃ n os' s', run (statement .page) s (List.replicate n (0, .go)) = some (os', s') ∧
        s'.owner = none := by
  have hmap : (run (statement .page) .init lineBegun).map (fun x =>
      (x.2.owner, (x.2.locals 1).isSome)) = some (some 0, true) := by decide
  have hcalls : ∀ x ∈ lineBegun, ∀ c, x.2 = .call c → c.request.NonEmpty := by
    intro x hx c hcall
    simp only [lineBegun, List.mem_cons, List.not_mem_nil, or_false] at hx
    rcases hx with rfl | rfl | rfl | rfl
    · cases hcall
      exact List.cons_ne_nil _ _
    · cases hcall
    · cases hcall
    · cases hcall
      trivial
  obtain ⟨⟨os, s⟩, hrun, heq⟩ := Option.map_eq_some_iff.mp hmap
  obtain ⟨howner, hbusy⟩ := Prod.mk.inj heq
  obtain ⟨hgoes, hfinishes⟩ := driver_goes_on hrun hcalls
  refine ⟨os, s, hrun, hgoes 1 ?_, hfinishes 0 howner⟩
  intro hnone
  rw [hnone] at hbusy
  cases hbusy

end Aesd.Driver
