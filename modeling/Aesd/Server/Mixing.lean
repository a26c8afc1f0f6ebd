/-
  Aesd.Server.Mixing

  Which connections an entry comes from.  The mutex keeps the writes of one
  connection together, but the driver's pending text outlives a connection:
  one that leaves `recv_messages` in the middle of a line hands its text to
  the next one (`sharedLine_mixed`).

  Entries come from one connection each in every run in which no connection
  gives the mutex back in the middle of a line.  The invariant is the monitor
  rule at work: the pending text is empty whenever the mutex is free, and it is
  the holder's own meanwhile.
-/
import Aesd.Server.Lines

namespace Aesd.Server

open Aesd.Lib
open Aesd.Lib.Monitor (Move Protocol Inv sysOk)
open Aesd.Driver (Byte newline isNewline Kernel CallEnv AesdSeekto)

/-! ## Giving the mutex back -/

/-- The last piece stored, if there is one, ends with a newline. -/
def endsLine (stored : List (List Byte)) : Bool :=
  stored.getLast?.all fun piece => Journal.ends isNewline piece

/-- If the connection is about to give the mutex back, the last piece that the
    device stored for it ends with a newline. -/
def unlocksAtLine (w : Worker) : Bool :=
  match w.pc with
  | .exit (.unlock :: _) => endsLine w.stored
  | _ => true

theorem endsLine_of_unlock {w : Worker} {todo : List ExitOp} (h : unlocksAtLine w = true)
    (hpc : w.pc = .exit (.unlock :: todo)) : endsLine w.stored = true := by
  rw [unlocksAtLine, hpc] at h
  exact h

theorem endsLine_concat (stored : List (List Byte)) (piece : List Byte) :
    endsLine (stored ++ [piece]) = Journal.ends isNewline piece := by
  simp [endsLine]

/-! ## The invariant -/

/-- All the bytes were received on connection `t`. -/
def From (t : Tid) (bytes : List (Byte × Tid)) : Prop := ∀ x ∈ bytes, x.2 = t

theorem from_tagged (t : Tid) (bytes : List Byte) : From t (tagged t bytes) := by
  intro x hx
  obtain ⟨b, -, rfl⟩ := List.mem_map.mp hx
  rfl

theorem From.append {t : Tid} {a b : List (Byte × Tid)} (ha : From t a) (hb : From t b) :
    From t (a ++ b) := by
  intro x hx
  rcases List.mem_append.mp hx with hx | hx
  · exact ha x hx
  · exact hb x hx

/-- The device stands for its history, and each entry has one source. -/
structure Sorted (K : Kernel) (r : Shared) : Prop where
  tracks : Tracks K r
  sources : ∀ e ∈ r.origin.entries, ∃ t, From t e

/-- The mutex is free: nothing is pending. -/
structure MixFree (K : Kernel) (r : Shared) : Prop where
  sorted : Sorted K r
  nothing_pending : r.origin.pending = []

/-- Connection `t` holds the mutex: what is pending is its own, and nothing is
    while the last piece stored for it ends a line. -/
structure MixHold (K : Kernel) (t : Tid) (r : Shared) (w : Worker) : Prop where
  sorted : Sorted K r
  inside : toUnlock w.pc = 1
  piece : PcPiece w.pc
  own_pending : From t r.origin.pending
  settled : endsLine w.stored = true → r.origin.pending = []

def MixIdle (_ : Tid) (_ : Shared) (w : Worker) : Prop := toUnlock w.pc = 0

/-- A write by the holder of the mutex. -/
theorem sources_absWriteNext (K : Kernel) (env : CallEnv) {t : Tid} {J : Journal (Byte × Tid)}
    (bytes : List Byte) (hs : ∀ e ∈ J.entries, ∃ t, From t e) (hp : From t J.pending) :
    (∀ e ∈ (Driver.absWriteNext isNewlineTagged K env J (tagged t bytes)).entries, ∃ t, From t e) ∧
      From t (Driver.absWriteNext isNewlineTagged K env J (tagged t bytes)).pending := by
  have hall := hp.append (from_tagged t bytes)
  unfold Driver.absWriteNext
  split
  · unfold Journal.append
    split
    · refine ⟨fun e he => ?_, fun x hx => absurd hx List.not_mem_nil⟩
      rcases List.mem_append.mp he with he | he
      · exact hs e he
      · rw [List.mem_singleton.mp he]
        exact ⟨t, hall⟩
    · -- the piece joins the holder's own pending text
      exact ⟨hs, hall⟩
  · exact ⟨hs, hp⟩

/-- After a write whose piece ends with a newline nothing is pending. -/
theorem pending_absWriteNext {K : Kernel} {env : CallEnv} {J : Journal (Byte × Tid)} {t : Tid}
    {bytes : List Byte} (hok : Driver.writeOk K env J (tagged t bytes) = true)
    (hends : Journal.ends isNewline bytes = true) :
    (Driver.absWriteNext isNewlineTagged K env J (tagged t bytes)).pending = [] := by
  have hne : tagged t bytes ≠ [] := by
    intro hnil
    have hlen := congrArg List.length hnil
    rw [length_tagged, List.length_nil] at hlen
    exact Journal.ne_nil_of_ends hends (List.eq_nil_of_length_eq_zero hlen)
  -- the last byte of the text is the last byte of the piece
  have hlast : Journal.ends isNewlineTagged (J.pending ++ tagged t bytes) = true := by
    rw [Journal.ends_append_of_ne_nil _ hne, isNewlineTagged, ← Journal.ends_map, map_fst_tagged]
    exact hends
  rw [Driver.absWriteNext, if_pos hok, Journal.append_of_ends hlast]

/-- A write of the holder. -/
theorem mixHold_write {K : Kernel} {t : Tid} {r : Shared} {w : Worker} {e : Event}
    {m : Move Shared Worker Op} (h : MixHold K t r w)
    (hact : connectionThread K t r w e = some m) (hlock : m.lock = .keep) {bytes : List Byte}
    {size : Nat} (hpc : w.pc = .write bytes size) : MixHold K t m.shared m.own := by
  have hinside := (toUnlock_keep hact hlock).trans h.inside
  have hpiece := pcPiece_step hact
  have hbytes := h.piece bytes size hpc
  have hne : bytes ≠ [] := List.ne_nil_of_length_pos hbytes.length_pos
  obtain ⟨env, rfl, hm⟩ := move_of_write hact hpc
  obtain ⟨system, heq, -, htracks'⟩ :=
    h.sorted.tracks.writeMove_eq t w env hne hbytes.length_le size
  obtain rfl := Option.some.inj (hm.symm.trans heq)
  obtain ⟨hsources', hown'⟩ := sources_absWriteNext K env bytes h.sorted.sources h.own_pending
  refine ⟨⟨htracks', hsources'⟩, hinside, hpiece, hown', fun hends => ?_⟩
  dsimp only at hends ⊢
  by_cases hwok : Driver.writeOk K env r.journal bytes = true
  · -- the piece was stored last, so it is the piece that ends a line
    rw [if_pos hwok, endsLine_concat] at hends
    rw [Shared.journal, ← writeOk_tagged K env r.origin t] at hwok
    exact pending_absWriteNext hwok hends
  · -- nothing was stored
    rw [if_neg hwok] at hends
    rw [Shared.journal, ← writeOk_tagged K env r.origin t] at hwok
    rw [Driver.absWriteNext, if_neg hwok]
    exact h.settled hends

/-- One step of the holder that keeps the mutex. -/
theorem mixHold_step {K : Kernel} {t : Tid} {r : Shared} {w : Worker} {e : Event}
    {m : Move Shared Worker Op} (h : MixHold K t r w)
    (hact : connectionThread K t r w e = some m) (hlock : m.lock = .keep) :
    MixHold K t m.shared m.own := by
  by_cases hwrite : ∃ bytes size, w.pc = .write bytes size
  · obtain ⟨bytes, size, hpc⟩ := hwrite
    exact mixHold_write h hact hlock hpc
  · have hnot : ∀ bytes size, w.pc ≠ .write bytes size := fun bytes size hpc =>
      hwrite ⟨bytes, size, hpc⟩
    obtain ⟨htracks', horigin, hstored⟩ := h.sorted.tracks.of_not_write hact hnot
    refine
      { sorted := ⟨htracks', ?_⟩, inside := (toUnlock_keep hact hlock).trans h.inside,
        piece := pcPiece_step hact, own_pending := ?_, settled := ?_ }
    · rw [horigin]
      exact h.sorted.sources
    · rw [horigin]
      exact h.own_pending
    · rw [horigin, hstored]
      exact h.settled

/-- The connections keep to the monitor rule as long as they leave whole lines. -/
theorem mixing_protocol (K : Kernel) :
    Protocol (connectionThread K) (fun _ _ w _ => unlocksAtLine w = true) (MixFree K)
      (MixHold K) MixIdle := by
  refine { acquire := ?_, hold := ?_, release := ?_, idle := ?_, stable := ?_ }
  · intro t r w e m hfree hidle _ hact hlock
    obtain ⟨-, rfl⟩ := eq_of_acquire hact hlock
    obtain ⟨⟨htracks, hsources⟩, hpending⟩ := hfree
    refine ⟨⟨htracks, hsources⟩, rfl, fun _ _ => Pc.noConfusion, ?_, fun _ => hpending⟩
    intro x hx
    dsimp only at hx
    -- a new holder finds nothing pending
    rw [hpending] at hx
    cases hx
  · intro t r w e m hhold _ hact hlock
    exact mixHold_step hhold hact hlock
  · intro t r w e m hhold hok hact hlock
    obtain ⟨todo, hpc, rfl⟩ := eq_of_release hact hlock
    -- what the next holder finds: the line of this one is closed
    have hclosed := hhold.settled (endsLine_of_unlock hok hpc)
    have hheld := hhold.inside
    rw [hpc, toUnlock, List.count_cons_self] at hheld
    exact ⟨⟨hhold.sorted, hclosed⟩, Nat.succ.inj hheld⟩
  · intro t r w e m hidle _ hact hlock
    -- outside the mutex nothing is written
    obtain ⟨hshared, -⟩ := eq_of_outside hact hlock hidle
    exact ⟨hshared, (toUnlock_keep hact hlock).trans hidle⟩
  · intro t r w e m u v _ hidle _ _ _
    exact hidle

theorem mixing_init (K : Kernel) (stack : Tid → List Byte) :
    Inv (MixFree K) (MixHold K) MixIdle (State.init stack) :=
  { idle := fun _ _ => rfl
    free := fun _ => ⟨⟨tracks_init K, fun _ he => absurd he List.not_mem_nil⟩, rfl⟩
    hold := fun _ hown => absurd hown (by simp [State.init, State.start]) }

/-- In every run in which each connection that gives the mutex back has last
    stored the end of a line, every committed entry comes from one connection. -/
theorem entries_not_mixed {K : Kernel} {stack : Tid → List Byte} {events : List (Tid × Event)}
    {outs : List (Tid × Op)} {s : State}
    (hrun : run (step K) (.init stack) events = some (outs, s))
    (hok : Meets (step K) (sysOk fun _ _ w _ => unlocksAtLine w = true) (.init stack) events) :
    Driver.committedTexts s.shared.system.driver =
        some ((Driver.committed s.shared.origin).map (List.map Prod.fst)) ∧
      ∀ e ∈ Driver.committed s.shared.origin, ∃ t, ∀ x ∈ e, x.2 = t := by
  have hinv := (mixing_protocol K).inv_run (mixing_init K stack) hrun hok
  have hsorted : Sorted K s.shared := by
    cases howner : s.owner with
    | none => exact (hinv.free howner).sorted
    | some t => exact (hinv.hold t howner).sorted
  obtain ⟨htexts, -, -⟩ := hsorted.tracks.driver.texts
  refine ⟨?_, fun e he => hsorted.sources e (Driver.mem_entries_of_mem_committed he)⟩
  rw [htexts, Driver.committed, Driver.committed, map_rtake]
  rfl

/-- `ab` of connection 0 and `c` of connection 1 make one entry. -/
theorem sharedLine_mixed :
    ∃ outs s, run (step .page) (.init fun _ => []) sharedLine = some (outs, s) ∧
      Driver.committedTexts s.shared.system.driver = some [[97, 98, 99, newline]] ∧
      ∃ e ∈ Driver.committed s.shared.origin, ¬ ∃ t, ∀ x ∈ e, x.2 = t := by
  have hmap : (run (step .page) (.init fun _ => []) sharedLine).map (fun x =>
      (Driver.committedTexts x.2.shared.system.driver, x.2.shared.origin)) =
        some (some [[97, 98, 99, newline]],
          ⟨[[(97, 0), (98, 0), (99, 1), (newline, 1)]], []⟩) := by decide
  obtain ⟨⟨outs, s⟩, hrun, heq⟩ := Option.map_eq_some_iff.mp hmap
  obtain ⟨htexts, horigin⟩ := Prod.mk.inj heq
  refine ⟨outs, s, hrun, htexts, [(97, 0), (98, 0), (99, 1), (newline, 1)], ?_, ?_⟩
  · rw [horigin]
    decide
  · rintro ⟨t, hall⟩
    have h0 := hall (97, 0) (by simp)
    have h1 := hall (99, 1) (by simp)
    exact absurd (h0.trans h1.symm) (by decide)

/-- Two connections write a whole line each. -/
def wholeLines : List (Tid × Event) :=
  [(0, .go), (1, .go), (0, .go), (0, .opened true),
    (0, .received (.chunk (.of 97 [newline])) none), (0, .device .calm), (0, .device .calm),
    (0, .sent .error), (0, .go), (0, .go), (0, .go), (0, .go), (0, .go), (1, .go),
    (1, .opened true), (1, .received (.chunk (.of 98 [newline])) none), (1, .device .calm),
    (1, .device .calm), (1, .sent .error), (1, .go), (1, .go), (1, .go), (1, .go), (1, .go)]

theorem wholeLines_not_mixed :
    ∃ outs s, run (step .page) (.init fun _ => []) wholeLines = some (outs, s) ∧
      s.shared.origin = ⟨[[(97, 0), (newline, 0)], [(98, 1), (newline, 1)]], []⟩ ∧
      Driver.committedTexts s.shared.system.driver = some [[97, newline], [98, newline]] ∧
      ∀ e ∈ Driver.committed s.shared.origin, ∃ t, ∀ x ∈ e, x.2 = t := by
  have hmap : (run (step .page) (.init fun _ => []) wholeLines).map (fun x =>
      (x.2.shared.origin, Driver.committedTexts x.2.shared.system.driver)) =
        some (⟨[[(97, 0), (newline, 0)], [(98, 1), (newline, 1)]], []⟩,
          some [[97, newline], [98, newline]]) := by decide
  have hok : Meets (step .page) (sysOk fun _ _ w _ => unlocksAtLine w = true)
      (.init fun _ => []) wholeLines := by
    unfold sysOk
    decide
  obtain ⟨⟨outs, s⟩, hrun, heq⟩ := Option.map_eq_some_iff.mp hmap
  obtain ⟨horigin, htexts⟩ := Prod.mk.inj heq
  exact ⟨outs, s, hrun, horigin, htexts, (entries_not_mixed hrun hok).2⟩

end Aesd.Server
