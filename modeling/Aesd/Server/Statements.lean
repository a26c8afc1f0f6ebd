/-
  Aesd.Server.Statements

  The server on the driver's statements.  `Server.Connection` lets a connection
  make a call of the device in one step; here the call is the code of
  `Driver.Statements`, one statement at a time behind the device mutex, while
  the other connections go on.  Nothing comes of that: a connection calls the
  device only while it has `file_mutex`, so every run of this server is, event
  by event as the calls return, one of `Server.Connection`, and the other way
  round (`server_on_statements`).
-/
import Aesd.Driver.Statements
import Aesd.Lib.Nested
import Aesd.Server.Sequential

namespace Aesd.Server

open Aesd.Lib
open Aesd.Lib.Monitor (Move)
open Aesd.Driver (Kernel Answer AesdSeekto CallEnv Byte newline vfsBuf)

/-! ## The calls of a connection -/

/-- What `recv_messages` makes of the answer of `ioctl`. -/
def onIoctl (w : Worker) (seekto : AesdSeekto) (receivedSize : Nat) (x : Answer) (r : Shared) :
    Move Shared Worker Op :=
  let next := afterIoctl x.ret receivedSize
  ⟨.keep, .ioctl seekto, r, { w with pc := afterPass next, recvRet := next }⟩

/-- What it makes of the answer of `write`. -/
def onWrite (K : Kernel) (t : Tid) (w : Worker) (env : CallEnv) (bytes : List Byte)
    (receivedSize : Nat) (x : Answer) (r : Shared) : Move Shared Worker Op :=
  let next := afterWrite x.ret receivedSize
  -- the histories, as in `writeMove`
  let piece := tagged t (vfsBuf bytes).val
  ⟨.keep, .write bytes,
    { r with origin := Driver.absWriteNext isNewlineTagged K env r.origin piece },
    { w with
      pc := afterPass next
      recvRet := next
      stored := if Driver.writeOk K env r.origin piece then w.stored ++ [bytes] else w.stored }⟩

/-- What `send_messages` makes of the answer of `read`. -/
def onReadAnswer (w : Worker) (x : Answer) (r : Shared) : Move Shared Worker Op :=
  ⟨.keep, .read, r,
    { w with
      pc := onRead x.ret
      sendBuffer := x.data ++ w.sendBuffer.drop x.data.length }⟩

/-- The calls of the device, and its part of what the connections share. -/
def deviceCalls (K : Kernel) : Calls Tid Shared Worker Event Op Driver.System Answer where
  get := Shared.system
  set r system := { r with system := system }
  call t w e :=
    match w.pc, e with
    | .ioctl seekto receivedSize, .device env =>
      some (Driver.callCode K ⟨.ioctl t Driver.AESDCHAR_IOCSEEKTO seekto, env⟩,
        onIoctl w seekto receivedSize)
    | .write bytes receivedSize, .device env =>
      some (Driver.callCode K ⟨.write t (vfsBuf bytes), env⟩,
        onWrite K t w env bytes receivedSize)
    | .read, .device env =>
      some (Driver.callCode K ⟨.read t bufferCount, env⟩, onReadAnswer w)
    | _, _ => none

/-- The connections, each in or out of a call. -/
abbrev Deep := Nested Tid Shared Worker Event Op Driver.System Answer

/-- The next step of one connection, or the next statement of its call. -/
def deepStep (K : Kernel) : Deep → Tid × NestedEvent Event →
    Option (Option ((Tid × Event) × (Tid × Op)) × Deep) :=
  Nested.step (deviceCalls K) (connectionThread K)

/-- What a call of a connection can be. -/
inductive Makes (K : Kernel) (t : Tid) (w : Worker) :
    Event → Driver.DriverCode Answer → (Answer → Shared → Move Shared Worker Op) → Prop where
  | ioctl {seekto : AesdSeekto} {receivedSize : Nat} (hpc : w.pc = .ioctl seekto receivedSize)
    (env : CallEnv) :
    Makes K t w (.device env)
      (Driver.callCode K ⟨.ioctl t Driver.AESDCHAR_IOCSEEKTO seekto, env⟩)
      (onIoctl w seekto receivedSize)
  | write {bytes : List Byte} {receivedSize : Nat} (hpc : w.pc = .write bytes receivedSize)
    (env : CallEnv) :
    Makes K t w (.device env) (Driver.callCode K ⟨.write t (vfsBuf bytes), env⟩)
      (onWrite K t w env bytes receivedSize)
  | read (hpc : w.pc = .read) (env : CallEnv) :
    Makes K t w (.device env) (Driver.callCode K ⟨.read t bufferCount, env⟩) (onReadAnswer w)

theorem deviceCalls_cases {K : Kernel} {t : Tid} {w : Worker} {e : Event}
    {code : Driver.DriverCode Answer} {after : Answer → Shared → Move Shared Worker Op}
    (h : (deviceCalls K).call t w e = some (code, after)) : Makes K t w e code after := by
  unfold deviceCalls at h
  dsimp only at h
  split at h
  case h_1 hpc => cases h; exact .ioctl hpc _
  case h_2 hpc => cases h; exact .write hpc _
  case h_3 hpc => cases h; exact .read hpc _
  case h_4 => cases h

/-- A connection has `file_mutex` when it calls the device, and the step of the connection is the
    whole call. -/
theorem deviceCalls_of (K : Kernel) :
    (deviceCalls K).Of (connectionThread K) fun w => toUnlock w.pc = 0 where
  get_set _ _ := rfl
  set_set _ _ _ := rfl
  set_get _ := rfl
  guarded t w e code after h := by
    cases deviceCalls_cases h with
    | ioctl hpc env => exact Driver.guarded_callCode K _
    | write hpc env => exact Driver.guarded_callCode K _
    | read hpc env => exact Driver.guarded_callCode K _
  inside t w e code after h := by
    cases deviceCalls_cases h with
    | ioctl hpc env =>
      rw [hpc]
      nofun
    | write hpc env =>
      rw [hpc]
      nofun
    | read hpc env =>
      rw [hpc]
      nofun
  whole t r w e code after h := by
    cases deviceCalls_cases h with
    | ioctl hpc env =>
      unfold connectionThread
      rw [hpc, Driver.exec_callCode]
      rfl
    | write hpc env =>
      unfold connectionThread
      rw [hpc, Driver.exec_callCode]
      rfl
    | read hpc env =>
      unfold connectionThread
      rw [hpc, Driver.exec_callCode]
      rfl

/-! ## Runs -/

/-- Every run of the server on the driver's statements is one on whole calls: the same events
    with the same outputs, in the order in which they are completed, and `file_mutex` and every
    connection where they were.  Only the owner of `file_mutex` can be in a call, and have
    the device mutex; with no call under way the device is the same as well.  Every run on
    whole calls comes from one on statements. -/
theorem server_on_statements {K : Kernel} {shared : Shared} {stack : Tid → List Byte} :
    (∀ xs os d, run (deepStep K) (.idle (State.start shared stack)) xs = some (os, d) →
      ∃ s, run (step K) (.start shared stack) ((Nested.completed os).map Prod.fst) =
          some ((Nested.completed os).map Prod.snd, s) ∧
        s.owner = d.outer.owner ∧ s.locals = d.outer.locals ∧
        (∀ t, d.holder = some t → d.calls t ≠ none) ∧
        (∀ t, d.calls t ≠ none → s.owner = some t) ∧
        ((∀ t, d.calls t = none) → d = .idle s)) ∧
      ∀ events outs s, run (step K) (.start shared stack) events = some (outs, s) →
        ∃ xs os, run (deepStep K) (.idle (State.start shared stack)) xs = some (os, .idle s) ∧
          (Nested.completed os).map Prod.fst = events ∧
          (Nested.completed os).map Prod.snd = outs := by
  refine ⟨fun xs os d hrun => ?_, fun events outs s hrun => ?_⟩
  · obtain ⟨s, hwhole, hmatches⟩ := Nested.run_whole (connectionThread_disciplined K)
      (deviceCalls_of K) (.idle (placed_start shared stack)) hrun
    exact ⟨s, hwhole, hmatches.agrees⟩
  · exact Nested.run_of_whole (deviceCalls_of K) hrun

/-- Connection 1 has started; connection 0 has `file_mutex`, and its write is two statements
    into the driver. -/
def writeBegun : List (Tid × NestedEvent Event) :=
  [(0, .meet .go), (1, .meet .go), (0, .meet .go), (0, .meet (.opened true)),
    (0, .meet (.received (.chunk (.of 97 [newline])) none)), (0, .meet (.device .calm)), (0, .go),
    (0, .go)]

theorem writeBegun_ends :
    (run (deepStep .page) (.idle (State.init fun _ => [])) writeBegun).map (fun x =>
      (x.2.holder, (x.2.outer.locals 1).pc, (x.2.calls 0).isSome)) =
        some (some 0, .lock, true) := by decide

theorem writeBegun_on_statements :
    ∃ os d s, run (deepStep .page) (.idle (State.init fun _ => [])) writeBegun = some (os, d) ∧
      run (step .page) (.init fun _ => []) ((Nested.completed os).map Prod.fst) =
        some ((Nested.completed os).map Prod.snd, s) ∧
      s.owner = some 0 ∧ s.locals = d.outer.locals := by
  obtain ⟨⟨os, d⟩, hrun, heq⟩ := Option.map_eq_some_iff.mp writeBegun_ends
  obtain ⟨hholder, -⟩ := Prod.mk.inj heq
  obtain ⟨hwhole, -⟩ := @server_on_statements .page .init fun _ => []
  obtain ⟨s, hs, -, hlocals, hbusy, howner, -⟩ := hwhole writeBegun os d hrun
  exact ⟨os, d, s, hrun, hs, howner 0 (hbusy 0 hholder), hlocals⟩

/-! ## Both mutexes -/

section Progress

variable {K : Kernel} {s : State} {t : Tid}

/-- A call that a connection makes has a result: it never writes nothing. -/
theorem call_defined (h : LinesKept K s.shared (s.locals t)) (howner : s.owner = some t) {e : Event}
    {code : Driver.DriverCode Answer} {after : Answer → Shared → Move Shared Worker Op}
    (hcall : (deviceCalls K).call t (s.locals t) e = some (code, after)) :
    (step K s (t, e)).isSome = true := by
  obtain ⟨htracks, -, hpiece⟩ := h
  have hdef : ∃ m, connectionThread K t s.shared (s.locals t) e = some m ∧ m.lock = .keep := by
    unfold connectionThread
    cases deviceCalls_cases hcall with
    | ioctl hpc env =>
      obtain ⟨system, heq, -⟩ := Stands.ioctlMove_eq htracks t (s.locals t) env _ _
      rw [hpc]
      exact ⟨_, heq, rfl⟩
    | write hpc env =>
      have hbytes := hpiece _ _ hpc
      obtain ⟨system, heq, -⟩ := htracks.writeMove_eq t (s.locals t) env
        (List.ne_nil_of_length_pos hbytes.length_pos) hbytes.length_le _
      rw [hpc]
      exact ⟨_, heq, rfl⟩
    | read hpc env =>
      obtain ⟨system, heq, -⟩ := Stands.readMove_eq htracks t (s.locals t) env
      rw [hpc]
      exact ⟨_, heq, rfl⟩
  obtain ⟨m, hact, hlock⟩ := hdef
  exact Monitor.step_isSome hact (fun hacq => by rw [hlock] at hacq; cases hacq) fun _ => howner

/-- On whole calls a connection that has not returned can go on, or the owner of `file_mutex`. -/
theorem connection_goes_on (hkept : ∀ t, LinesKept K s.shared (s.locals t))
    (hplaced : Monitor.Placed (fun w => toUnlock w.pc = 0) (fun w => toUnlock w.pc = 1) s)
    (hleft : ¬ Finished (s.locals t)) :
    ∃ x : Tid × Event, (x.1 = t ∨ s.owner = some x.1) ∧ (step K s x).isSome = true := by
  cases howner : s.owner with
  | some u =>
    obtain ⟨htracks, -, hpiece⟩ := hkept u
    obtain ⟨m, hact, hlock⟩ := calm_of_inside htracks (hplaced.owner u howner)
      (fun bytes size hpc => ⟨List.ne_nil_of_length_pos (hpiece bytes size hpc).length_pos,
        (hpiece bytes size hpc).length_le⟩) .closed
    exact ⟨(u, _), .inr rfl, Monitor.step_isSome hact (fun h => absurd h hlock) fun _ => howner⟩
  | none =>
    have hout := hplaced.others t (by simp [howner])
    obtain ⟨m, hact, hlock⟩ := go_of_outside K t s.shared hout hleft
    exact ⟨(t, .go), .inl rfl, Monitor.step_isSome hact (fun _ => howner) fun h => absurd h hlock⟩

end Progress

/-- Whatever the clients do and whatever fails, `file_mutex` and the device mutex together never
    hold the connections up: one that has not returned can take a step or a statement, or the
    owner of `file_mutex` can; and a connection that is in a call completes it by its own
    statements, with the device mutex free behind it. -/
theorem server_on_statements_goes_on {K : Kernel} {stack : Tid → List Byte}
    {xs : List (Tid × NestedEvent Event)} {os : List (Option ((Tid × Event) × (Tid × Op)))}
    {d : Deep} (hrun : run (deepStep K) (.idle (State.init stack)) xs = some (os, d)) :
    (∀ t, ¬ Finished (d.outer.locals t) → ∃ u ev, (u = t ∨ d.outer.owner = some u) ∧
      (deepStep K d (u, ev)).isSome = true) ∧
      ∀ t, d.calls t ≠ none → ∃ n os' d',
        run (deepStep K) d (List.replicate n (t, .go)) = some (os', d') ∧
          (∀ u, d'.calls u = none) ∧ d'.holder = none := by
  obtain ⟨s, hwhole, hmatches⟩ := Nested.run_whole (connectionThread_disciplined K)
    (deviceCalls_of K) (.idle (placed_start .init stack)) hrun
  have hkept := run_inv (I := fun s => ∀ t, LinesKept K s.shared (s.locals t))
    (fun _ _ _ _ hs hstep => linesKept_sys hs hstep) (linesKept_init K stack) hwhole
  have hfinishes : ∀ t p, d.calls t = some p → ∃ n os' s',
      run (deepStep K) d (List.replicate (n + 1) (t, .go)) = some (os', .idle s') := by
    intro t p hbusy
    obtain ⟨howner, code, hcall⟩ := hmatches.call_of hbusy
    exact hmatches.finishes (deviceCalls_of K) hbusy (call_defined (hkept t) howner hcall)
  refine ⟨fun t hleft => ?_, fun t hbusy => ?_⟩
  · by_cases hidle : ∃ u p, d.calls u = some p
    · -- the next statement, or the return, of the call under way
      obtain ⟨u, p, hbusy⟩ := hidle
      obtain ⟨n, os', s', hgo⟩ := hfinishes u p hbusy
      obtain ⟨o, d₁, os₁, hone, -, -⟩ := run_cons_eq_some.mp hgo
      obtain ⟨howner, -⟩ := hmatches.call_of hbusy
      refine ⟨u, .go, .inr (hmatches.agrees.1.symm.trans howner), ?_⟩
      rw [hone]
      rfl
    · have hnone : ∀ u, d.calls u = none := fun u =>
        Option.eq_none_iff_forall_ne_some.mpr fun p hp => hidle ⟨u, p, hp⟩
      obtain ⟨-, -, -, -, hd⟩ := hmatches.agrees
      obtain rfl := hd hnone
      obtain ⟨⟨u, e⟩, hu, hgo⟩ := connection_goes_on hkept hmatches.placed hleft
      exact ⟨u, .meet e, hu, Nested.idle_isSome hgo⟩
  · obtain ⟨p, hp⟩ := Option.ne_none_iff_exists'.mp hbusy
    obtain ⟨n, os', s', hgo⟩ := hfinishes t p hp
    exact ⟨n + 1, os', .idle s', hgo, fun _ => rfl, rfl⟩

/-- The same there: connection 1 waits for connection 0, which completes its write. -/
theorem writeBegun_goes_on :
    ∃ os d, run (deepStep .page) (.idle (State.init fun _ => [])) writeBegun = some (os, d) ∧
      d.holder = some 0 ∧ (d.outer.locals 1).pc = .lock ∧
      (∃ u ev, (u = 1 ∨ d.outer.owner = some u) ∧ (deepStep .page d (u, ev)).isSome = true) ∧
      ∃ n os' d', run (deepStep .page) d (List.replicate n (0, .go)) = some (os', d') ∧
        (∀ u, d'.calls u = none) ∧ d'.holder = none := by
  obtain ⟨⟨os, d⟩, hrun, heq⟩ := Option.map_eq_some_iff.mp writeBegun_ends
  obtain ⟨hholder, hrest⟩ := Prod.mk.inj heq
  obtain ⟨hpc, hbusy⟩ := Prod.mk.inj hrest
  dsimp only at hholder hpc hbusy
  obtain ⟨hgo, hcompletes⟩ := server_on_statements_goes_on hrun
  have hleft : ¬ Finished (d.outer.locals 1) := by
    rw [Finished, hpc]
    nofun
  have hcalls : d.calls 0 ≠ none := fun hnone => by
    rw [hnone] at hbusy
    cases hbusy
  exact ⟨os, d, hrun, hholder, hpc, hgo 1 hleft, hcompletes 0 hcalls⟩

end Aesd.Server
