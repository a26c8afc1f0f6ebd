/-
  Aesd.Server.Program

  `main` of `aesdsocket.c`: the listening socket is made, the process forks if
  it is asked to, and `run_server` runs, with `Server.Main` for its loops.  The
  two early returns of `run_server` are here as well.

  The first `syslog` opens a socket of its own, which nobody closes.  Later ones
  use it, or do without: that `/dev/log` comes or goes while the program runs is
  left out.

  The socket is open whenever `run_server` accepts, -1 is returned exactly if a
  call of the start has failed, and of the descriptors nothing is left but the
  log socket and what a failed fork or a failed set-up leaves (`main_ends`).
-/
import Aesd.Server.Descriptors

namespace Aesd.Server

open Aesd.Lib

/-! ## The steps -/

/-- What `fork` answers. -/
inductive Forked where
  | error
  | parent
  | child

/-- The call that `main` is at; from `mutex` to `serve` it is inside `run_server`. -/
inductive ProgramPc where
  | socket
  -- the first `syslog`, with what `socket` has returned
  | log (res : Option Fd)
  | setsockopt (socketFd : Fd)
  | getaddrinfo (socketFd : Fd)
  | bind (socketFd : Fd)
  | fork (socketFd : Fd)
  -- `malloc` of `file_mutex`
  | mutex (socketFd : Fd)
  | listen (socketFd : Fd)
  | serve (socketFd : Fd)
  -- the last `stop_process`
  | stop (socketFd : Fd) (ret : Int)
  | exited (ret : Int)

/-- The program: `process` has its descriptors and `quit` from the start. -/
structure Program where
  pc : ProgramPc
  isDaemon : Bool
  process : Process

/-- What `main` starts with: the numbers in `taken` are open. -/
def Program.start (isDaemon : Bool) (taken : Fd → Bool) : Program :=
  ⟨.socket, isDaemon, .start taken⟩

/-- What happens next. -/
inductive ProgramEvent where
  | socket (res : Option Fd)
  -- the log socket, if it could be opened
  | logged (res : Option Fd)
  -- of a call that succeeds or fails
  | answer (ok : Bool)
  | forked (res : Forked)
  | go
  -- a step inside `run_server`, or a signal, which is handled from the start
  | turn (turn : Turn)

/-- `stop_process(socket_fd)`. -/
def Process.stopProcess (p : Process) (socketFd : Fd) : Process := p.close .main .other socketFd

def Process.signal (p : Process) : Process := { p with quit := true }

/-- Where main goes on behind the first `syslog`; `stop_process(-1)` closes nothing. -/
def afterLog : Option Fd → ProgramPc
  | none => .exited (-1)
  | some socketFd => .setsockopt socketFd

/-- The next step. -/
def Program.step (s : Program) (e : ProgramEvent) : Option (Unit × Program) :=
  match s.pc, e with
  | .socket, .socket none => some ((), { s with pc := .log none })
  | .socket, .socket (some socketFd) =>
    (s.process.openFd socketFd .other).map fun p =>
      ((), { s with pc := .log (some socketFd), process := p })
  | .log res, .logged none => some ((), { s with pc := afterLog res })
  | .log res, .logged (some logFd) =>
    (s.process.openFd logFd .other).map fun p => ((), { s with pc := afterLog res, process := p })
  | .setsockopt socketFd, .answer true => some ((), { s with pc := .getaddrinfo socketFd })
  | .setsockopt socketFd, .answer false =>
    -- the socket is closed, and main goes on
    some ((), { s with pc := .getaddrinfo socketFd, process := s.process.stopProcess socketFd })
  | .getaddrinfo socketFd, .answer true => some ((), { s with pc := .bind socketFd })
  | .getaddrinfo socketFd, .answer false => some ((), { s with pc := .stop socketFd (-1) })
  | .bind socketFd, .answer true =>
    match s.process.fds socketFd with
    -- a number that is not open is not bound
    | none => none
    | some _ =>
      some ((), { s with pc := if s.isDaemon then .fork socketFd else .mutex socketFd })
  | .bind socketFd, .answer false => some ((), { s with pc := .stop socketFd (-1) })
  -- `return false`
  | .fork _, .forked .error => some ((), { s with pc := .exited 0 })
  | .fork socketFd, .forked .parent => some ((), { s with pc := .stop socketFd 0 })
  | .fork socketFd, .forked .child => some ((), { s with pc := .mutex socketFd })
  | .mutex socketFd, .answer true => some ((), { s with pc := .listen socketFd })
  | .mutex socketFd, .answer false => some ((), { s with pc := .stop socketFd (-1) })
  | .listen socketFd, .answer true => some ((), { s with pc := .serve socketFd })
  | .listen socketFd, .answer false => some ((), { s with pc := .stop socketFd (-1) })
  | .serve _, .turn turn => (s.process.step turn).map fun x => ((), { s with process := x.2 })
  | .serve socketFd, .go =>
    if s.process.Returned then some ((), { s with pc := .stop socketFd 0 }) else none
  | .stop socketFd ret, .go =>
    some ((), { s with pc := .exited ret, process := s.process.stopProcess socketFd })
  | .exited _, _ => none
  | _, .turn .signal => some ((), { s with process := s.process.signal })
  | _, _ => none

/-- Everything that can happen next. -/
inductive ProgramActs (s : Program) : ProgramEvent → Program → Prop where
  | noSocket (hpc : s.pc = .socket) : ProgramActs s (.socket none) { s with pc := .log none }
  | socket {fd : Fd} {p : Process} (hpc : s.pc = .socket)
    (hopen : s.process.openFd fd .other = some p) :
    ProgramActs s (.socket (some fd)) { s with pc := .log (some fd), process := p }
  | noLog {res : Option Fd} (hpc : s.pc = .log res) :
    ProgramActs s (.logged none) { s with pc := afterLog res }
  | log {res : Option Fd} {fd : Fd} {p : Process} (hpc : s.pc = .log res)
    (hopen : s.process.openFd fd .other = some p) :
    ProgramActs s (.logged (some fd)) { s with pc := afterLog res, process := p }
  | reuses {fd : Fd} (hpc : s.pc = .setsockopt fd) :
    ProgramActs s (.answer true) { s with pc := .getaddrinfo fd }
  | closes {fd : Fd} (hpc : s.pc = .setsockopt fd) :
    ProgramActs s (.answer false)
      { s with pc := .getaddrinfo fd, process := s.process.stopProcess fd }
  | resolves {fd : Fd} (hpc : s.pc = .getaddrinfo fd) :
    ProgramActs s (.answer true) { s with pc := .bind fd }
  | binds {fd : Fd} {d : Description} (hpc : s.pc = .bind fd)
    (hopen : s.process.fds fd = some d) :
    ProgramActs s (.answer true) { s with pc := if s.isDaemon then .fork fd else .mutex fd }
  | unbindable {fd : Fd} (hpc : s.pc = .getaddrinfo fd ∨ s.pc = .bind fd) :
    ProgramActs s (.answer false) { s with pc := .stop fd (-1) }
  | forkFails {fd : Fd} (hpc : s.pc = .fork fd) :
    ProgramActs s (.forked .error) { s with pc := .exited 0 }
  | parent {fd : Fd} (hpc : s.pc = .fork fd) :
    ProgramActs s (.forked .parent) { s with pc := .stop fd 0 }
  | child {fd : Fd} (hpc : s.pc = .fork fd) :
    ProgramActs s (.forked .child) { s with pc := .mutex fd }
  | allocates {fd : Fd} (hpc : s.pc = .mutex fd) :
    ProgramActs s (.answer true) { s with pc := .listen fd }
  | listens {fd : Fd} (hpc : s.pc = .listen fd) :
    ProgramActs s (.answer true) { s with pc := .serve fd }
  | unserved {fd : Fd} (hpc : s.pc = .mutex fd ∨ s.pc = .listen fd) :
    ProgramActs s (.answer false) { s with pc := .stop fd (-1) }
  | turn {fd : Fd} {turn : Turn} {u : Unit} {p : Process} (hpc : s.pc = .serve fd)
    (hturn : s.process.step turn = some (u, p)) : ProgramActs s (.turn turn) { s with process := p }
  | returns {fd : Fd} (hpc : s.pc = .serve fd) (hret : s.process.Returned) :
    ProgramActs s .go { s with pc := .stop fd 0 }
  | exits {fd : Fd} {ret : Int} (hpc : s.pc = .stop fd ret) :
    ProgramActs s .go { s with pc := .exited ret, process := s.process.stopProcess fd }
  | signal (hserve : ∀ fd, s.pc ≠ .serve fd) (hexited : ∀ ret, s.pc ≠ .exited ret) :
    ProgramActs s (.turn .signal) { s with process := s.process.signal }

theorem Program.step_cases {s s' : Program} {e : ProgramEvent} {u : Unit}
    (h : s.step e = some (u, s')) : ProgramActs s e s' := by
  unfold Program.step at h
  split at h
  case h_1 hpc => cases h; exact .noSocket hpc
  case h_2 hpc =>
    obtain ⟨p, hopen, heq⟩ := Option.map_eq_some_iff.mp h
    cases heq
    exact .socket hpc hopen
  case h_3 hpc => cases h; exact .noLog hpc
  case h_4 hpc =>
    obtain ⟨p, hopen, heq⟩ := Option.map_eq_some_iff.mp h
    cases heq
    exact .log hpc hopen
  case h_5 hpc => cases h; exact .reuses hpc
  case h_6 hpc => cases h; exact .closes hpc
  case h_7 hpc => cases h; exact .resolves hpc
  case h_8 hpc => cases h; exact .unbindable (.inl hpc)
  case h_9 hpc =>
    split at h
    case h_1 => cases h
    case h_2 hopen => cases h; exact .binds hpc hopen
  case h_10 hpc => cases h; exact .unbindable (.inr hpc)
  case h_11 hpc => cases h; exact .forkFails hpc
  case h_12 hpc => cases h; exact .parent hpc
  case h_13 hpc => cases h; exact .child hpc
  case h_14 hpc => cases h; exact .allocates hpc
  case h_15 hpc => cases h; exact .unserved (.inl hpc)
  case h_16 hpc => cases h; exact .listens hpc
  case h_17 hpc => cases h; exact .unserved (.inr hpc)
  case h_18 hpc =>
    obtain ⟨⟨v, p⟩, hturn, heq⟩ := Option.map_eq_some_iff.mp h
    cases heq
    exact .turn hpc hturn
  case h_19 hpc =>
    split at h
    case isTrue hret => cases h; exact .returns hpc hret
    case isFalse => cases h
  case h_20 hpc => cases h; exact .exits hpc
  case h_21 => cases h
  case h_22 hserve hexited => cases h; exact .signal hserve hexited
  case h_23 => cases h

/-- A call of the start fails. -/
def ProgramEvent.Fails (e : ProgramEvent) : Prop := e = .socket none ∨ e = .answer false

@[simp] theorem fails_socket (res : Option Fd) : (ProgramEvent.socket res).Fails ↔ res = none := by
  simp [ProgramEvent.Fails]

@[simp] theorem not_fails_logged (res : Option Fd) : ¬ (ProgramEvent.logged res).Fails := by
  simp [ProgramEvent.Fails]

@[simp] theorem fails_answer (ok : Bool) : (ProgramEvent.answer ok).Fails ↔ ok = false := by
  simp [ProgramEvent.Fails]

@[simp] theorem not_fails_forked (res : Forked) : ¬ (ProgramEvent.forked res).Fails := by
  simp [ProgramEvent.Fails]

@[simp] theorem not_fails_go : ¬ ProgramEvent.go.Fails := by simp [ProgramEvent.Fails]

@[simp] theorem not_fails_turn (turn : Turn) : ¬ (ProgramEvent.turn turn).Fails := by
  simp [ProgramEvent.Fails]

/-- The steps inside `run_server`, and the signals. -/
def turnsOf (events : List ProgramEvent) : List Turn :=
  events.filterMap fun
    | .turn turn => some turn
    | _ => none

theorem turnsOf_turn (events : List ProgramEvent) (turn : Turn) :
    turnsOf (events ++ [.turn turn]) = turnsOf events ++ [turn] := by simp [turnsOf]

theorem turnsOf_call (events : List ProgramEvent) {e : ProgramEvent}
    (h : ∀ turn, e ≠ .turn turn) : turnsOf (events ++ [e]) = turnsOf events := by
  cases e with
  | turn turn => exact absurd rfl (h turn)
  | socket res => simp [turnsOf]
  | logged res => simp [turnsOf]
  | answer ok => simp [turnsOf]
  | forked res => simp [turnsOf]
  | go => simp [turnsOf]

/-! ## The descriptors before the loops -/

/-- The numbers in `taken` are open, and no others. -/
def OnlyOpen (taken : Fd → Bool) (fds : Fd → Option Description) : Prop :=
  ∀ fd, fds fd = if taken fd then some .other else none

/-- Of what was opened beyond `taken`, all that can be open still is the socket of a connection
    whose set-up has failed. -/
structure Remains (taken : Fd → Bool) (turns : List Turn) (fds : Fd → Option Description) :
    Prop where
  kept : ∀ fd, taken fd = true → fds fd = some .other
  lost : ∀ fd d, taken fd = false → fds fd = some d →
    (∃ k, d = .client k) ∧ ∃ turn ∈ turns, turn.Drops
  one : ∀ fd fd', taken fd = false → taken fd' = false → fds fd ≠ none → fds fd' ≠ none →
    fd = fd'

/-- Nothing has happened to the process but signals. -/
structure Untouched (taken : Fd → Bool) (turns : List Turn) (p : Process) : Prop where
  eq : p = { Process.start taken with quit := !turns.isEmpty }
  signals : ∀ turn ∈ turns, turn = .signal

section Start

variable {taken : Fd → Bool} {turns : List Turn} {fds : Fd → Option Description} {p : Process}
  {fd : Fd}

theorem OnlyOpen.remains (h : OnlyOpen taken fds) : Remains taken turns fds := by
  have hnone : ∀ n, taken n = false → fds n = none := fun n hn => by rw [h n, hn]; rfl
  exact {
    kept := fun n hn => by rw [h n, if_pos hn]
    lost := fun n d hn hd => by
      rw [hnone n hn] at hd
      cases hd
    one := fun n _ hn _ hopen => absurd (hnone n hn) hopen }

/-- The socket is closed for good. -/
theorem Remains.close (h : Remains (Function.update taken fd true) turns fds)
    (hfd : taken fd = false) : Remains taken turns (Function.update fds fd none) := by
  have hother : ∀ n, n ≠ fd → Function.update taken fd true n = taken n ∧
      Function.update fds fd none n = fds n :=
    fun n hn => ⟨Function.update_of_ne hn .., Function.update_of_ne hn ..⟩
  have hopen : ∀ n, Function.update fds fd none n ≠ none → n ≠ fd := by
    rintro n hn rfl
    exact hn (Function.update_self ..)
  exact {
    kept := fun n hn => by
      have hne : n ≠ fd := by
        rintro rfl
        rw [hfd] at hn
        cases hn
      obtain ⟨htaken, hfds⟩ := hother n hne
      rw [hfds, h.kept n (htaken.trans hn)]
    lost := fun n d hn hd => by
      obtain ⟨htaken, hfds⟩ := hother n (hopen n (by simp [hd]))
      exact h.lost n d (htaken.trans hn) (hfds.symm.trans hd)
    one := fun n n' hn hn' hd hd' => by
      obtain ⟨htaken, hfds⟩ := hother n (hopen n hd)
      obtain ⟨htaken', hfds'⟩ := hother n' (hopen n' hd')
      exact h.one n n' (htaken.trans hn) (htaken'.trans hn') (hfds ▸ hd) (hfds' ▸ hd') }

/-- A number that is free is closed. -/
theorem OnlyOpen.close (h : OnlyOpen taken fds) (hfd : taken fd = false) :
    Function.update fds fd none = fds := by
  rw [Function.update_eq_self_iff, h fd, hfd]
  rfl

/-- The socket is the one number more that is open, and it is closed. -/
theorem OnlyOpen.closed (h : OnlyOpen (Function.update taken fd true) fds)
    (hfd : taken fd = false) : OnlyOpen taken (Function.update fds fd none) := by
  intro n
  by_cases hn : n = fd
  · rw [hn, Function.update_self, hfd]
    rfl
  · rw [Function.update_of_ne hn, h n, Function.update_of_ne hn]

theorem Untouched.onlyOpen (h : Untouched taken turns p) : OnlyOpen taken p.fds := fun n => by
  rw [h.eq]
  rfl

theorem Untouched.signal (h : Untouched taken turns p) :
    Untouched taken (turns ++ [.signal]) p.signal where
  eq := by
    rw [h.eq]
    simp [Process.signal]
  signals turn hturn := by
    rcases List.mem_append.mp hturn with hturn | hturn
    · exact h.signals turn hturn
    · exact List.mem_singleton.mp hturn

/-- The socket is made. -/
theorem Untouched.socket {p' : Process} (h : Untouched taken turns p)
    (hopen : p.openFd fd .other = some p') :
    taken fd = false ∧ Untouched (Function.update taken fd true) turns p' := by
  obtain ⟨hfree, rfl⟩ := openFd_eq_some hopen
  have hfd : taken fd = false := by
    rw [h.onlyOpen fd] at hfree
    by_contra htaken
    rw [if_pos (by simpa using htaken)] at hfree
    cases hfree
  refine ⟨hfd, ?_, h.signals⟩
  have hfds : Function.update p.fds fd (some .other) =
      (Process.start (Function.update taken fd true)).fds := by
    funext n
    by_cases hn : n = fd
    · rw [hn, Function.update_self]
      simp [Process.start]
    · rw [Function.update_of_ne hn, h.onlyOpen n]
      simp [Process.start, Function.update_of_ne hn]
  rw [hfds, h.eq]
  rfl

/-- The loops start where the signals have left the process. -/
theorem Untouched.run (h : Untouched taken turns p) :
    ∃ us, run Process.step (.start taken) turns = some (us, p) := by
  obtain ⟨heq, hsignals⟩ := h
  have hrun : ∀ (turns : List Turn) (q : Process), (∀ turn ∈ turns, turn = .signal) →
      ∃ us, Lib.run Process.step q turns =
        some (us, { q with quit := q.quit || !turns.isEmpty }) := by
    intro turns
    induction turns with
    | nil =>
      intro q _
      exact ⟨[], by simp [Lib.run]⟩
    | cons turn turns ih =>
      intro q hall
      rw [List.forall_mem_cons] at hall
      obtain ⟨rfl, hall⟩ := hall
      obtain ⟨us, hrest⟩ := ih { q with quit := true } hall
      refine ⟨() :: us, run_cons_eq_some.mpr ⟨(), _, us, rfl, ?_, rfl⟩⟩
      simpa using hrest
  obtain ⟨us, hus⟩ := hrun turns (.start taken) hsignals
  exact ⟨us, by rw [hus, heq]; rfl⟩

end Start

/-! ## Where main is -/

/-- The number of the log socket. -/
def logFd (events : List ProgramEvent) : Option Fd :=
  events.findSome? fun
    | .logged res => res
    | _ => none

/-- What is open besides what main opens and closes: what was open before, and the log
    socket. -/
def held (taken : Fd → Bool) (events : List ProgramEvent) : Fd → Bool :=
  match logFd events with
  | none => taken
  | some fd => Function.update taken fd true

/-- Neither a call of the start nor `fork` has failed. -/
def Smooth (events : List ProgramEvent) : Prop := ∀ e ∈ events, ¬ e.Fails ∧ e ≠ .forked .error

/-- A call of the start has failed, and `fork` has not. -/
def Failed (events : List ProgramEvent) : Prop :=
  (∃ e ∈ events, e.Fails) ∧ .forked .error ∉ events

/-- -1 says that a call of the start has failed. -/
def Returns (events : List ProgramEvent) (ret : Int) : Prop :=
  (ret = -1 ∧ ∃ e ∈ events, e.Fails) ∨ (ret = 0 ∧ ¬ ∃ e ∈ events, e.Fails)

/-- The socket is open, and all has gone well. -/
structure Ready (opened : Fd → Bool) (events : List ProgramEvent) (socketFd : Fd) (p : Process) :
    Prop where
  free : opened socketFd = false
  smooth : Smooth events
  process : Untouched (Function.update opened socketFd true) (turnsOf events) p

/-- The socket is open; or it is closed, because `setsockopt` has failed. -/
def Bindable (opened : Fd → Bool) (events : List ProgramEvent) (socketFd : Fd) (p : Process) :
    Prop :=
  Ready opened events socketFd p ∨
    opened socketFd = false ∧ Failed events ∧ OnlyOpen opened p.fds

/-- The loops have run as far as this. -/
structure Serving (opened : Fd → Bool) (events : List ProgramEvent) (socketFd : Fd) (p : Process) :
    Prop where
  free : opened socketFd = false
  smooth : Smooth events
  ran : ∃ us, run Process.step (.start (Function.update opened socketFd true)) (turnsOf events) =
    some (us, p)

/-- With the socket closed no more than `Remains` says will be open. -/
structure Stopping (opened : Fd → Bool) (events : List ProgramEvent) (socketFd : Fd) (ret : Int)
    (p : Process) : Prop where
  free : opened socketFd = false
  returns : Returns events ret
  forked : .forked .error ∉ events
  remains : Remains opened (turnsOf events) (p.stopProcess socketFd).fds

/-- What is left behind main. -/
structure Exited (opened : Fd → Bool) (events : List ProgramEvent) (ret : Int) (p : Process) :
    Prop where
  returns : Returns events ret
  remains : .forked .error ∉ events → Remains opened (turnsOf events) p.fds
  listens : .forked .error ∈ events → ∃ socketFd, opened socketFd = false ∧
    OnlyOpen (Function.update opened socketFd true) p.fds

/-- What main's place says. -/
def PlaceAt (opened : Fd → Bool) (events : List ProgramEvent) (s : Program) : Prop :=
  match s.pc with
  | .socket => Smooth events ∧ Untouched opened (turnsOf events) s.process
  | .log none => Failed events ∧ Untouched opened (turnsOf events) s.process
  | .log (some fd) | .setsockopt fd | .fork fd | .mutex fd | .listen fd =>
    Ready opened events fd s.process
  | .getaddrinfo fd | .bind fd => Bindable opened events fd s.process
  | .serve fd => Serving opened events fd s.process
  | .stop fd ret => Stopping opened events fd ret s.process
  | .exited ret => Exited opened events ret s.process

/-- The first `syslog` is still to come. -/
def ProgramPc.Unlogged (pc : ProgramPc) : Prop := pc = .socket ∨ ∃ res, pc = .log res

structure ProgramAt (taken : Fd → Bool) (events : List ProgramEvent) (s : Program) : Prop where
  place : PlaceAt (held taken events) events s
  unlogged : s.pc.Unlogged → logFd events = none

section Step

variable {taken opened : Fd → Bool} {events : List ProgramEvent} {s s' : Program}
  {e : ProgramEvent} {u : Unit} {fd : Fd} {p : Process}

/-! ### One event more -/

theorem logFd_concat (events : List ProgramEvent) (res : Option Fd) :
    logFd (events ++ [.logged res]) = (logFd events).or res := by
  rw [logFd, List.findSome?_append, logFd]
  cases res <;> rfl

theorem logFd_call (events : List ProgramEvent) (h : ∀ res, e ≠ .logged res) :
    logFd (events ++ [e]) = logFd events := by
  rw [logFd, List.findSome?_append]
  cases e with
  | logged res => exact absurd rfl (h res)
  | socket res => exact Option.or_none
  | answer ok => exact Option.or_none
  | forked res => exact Option.or_none
  | go => exact Option.or_none
  | turn turn => exact Option.or_none

theorem held_call (taken : Fd → Bool) (events : List ProgramEvent) (h : ∀ res, e ≠ .logged res) :
    held taken (events ++ [e]) = held taken events := by
  rw [held, logFd_call events h, held]

theorem held_of_none (taken : Fd → Bool) (h : logFd events = none) : held taken events = taken := by
  rw [held, h]

theorem held_noLog (taken : Fd → Bool) (h : logFd events = none) :
    held taken (events ++ [.logged none]) = taken := by
  rw [held, logFd_concat, h]
  rfl

theorem held_log (taken : Fd → Bool) (h : logFd events = none) (fd : Fd) :
    held taken (events ++ [.logged (some fd)]) = Function.update taken fd true := by
  rw [held, logFd_concat, h]
  rfl

theorem Smooth.snoc (h : Smooth events) (hfails : ¬ e.Fails) (hfork : e ≠ .forked .error) :
    Smooth (events ++ [e]) := by
  intro e' he'
  rcases List.mem_append.mp he' with he' | he'
  · exact h e' he'
  · rw [List.mem_singleton.mp he']
    exact ⟨hfails, hfork⟩

theorem Smooth.returns (h : Smooth events) : Returns events 0 :=
  .inr ⟨rfl, fun ⟨e, he, hfails⟩ => (h e he).1 hfails⟩

theorem Smooth.notMem (h : Smooth events) : .forked .error ∉ events := fun hmem =>
  (h _ hmem).2 rfl

/-- A call fails. -/
theorem failed_snoc (h : .forked .error ∉ events) (hfails : e.Fails) (hfork : e ≠ .forked .error) :
    Failed (events ++ [e]) := by
  refine ⟨⟨e, List.mem_append_right _ List.mem_cons_self, hfails⟩, ?_⟩
  rw [List.mem_append, List.mem_singleton, not_or]
  exact ⟨h, hfork.symm⟩

theorem Failed.snoc (h : Failed events) (hfork : e ≠ .forked .error) : Failed (events ++ [e]) := by
  obtain ⟨⟨e', he', hbad⟩, hnot⟩ := h
  refine ⟨⟨e', List.mem_append_left _ he', hbad⟩, ?_⟩
  rw [List.mem_append, List.mem_singleton, not_or]
  exact ⟨hnot, hfork.symm⟩

theorem Failed.returns (h : Failed events) : Returns events (-1) := .inl ⟨rfl, h.1⟩

theorem Returns.snoc {ret : Int} (h : Returns events ret) (hfails : ¬ e.Fails) :
    Returns (events ++ [e]) ret := by
  have hiff : (∃ e' ∈ events ++ [e], e'.Fails) ↔ ∃ e' ∈ events, e'.Fails := by
    simp [or_and_right, exists_or, hfails]
  rw [Returns, hiff]
  exact h

theorem Untouched.snoc (h : Untouched opened (turnsOf events) p) (hcall : ∀ turn, e ≠ .turn turn) :
    Untouched opened (turnsOf (events ++ [e])) p := by
  rwa [turnsOf_call events hcall]

theorem Untouched.snoc_signal (h : Untouched opened (turnsOf events) p) :
    Untouched opened (turnsOf (events ++ [.turn .signal])) p.signal := by
  rw [turnsOf_turn]
  exact h.signal

/-- A call of the start has succeeded. -/
theorem Ready.snoc (h : Ready opened events fd p) (hcall : ∀ turn, e ≠ .turn turn)
    (hfails : ¬ e.Fails) (hfork : e ≠ .forked .error) : Ready opened (events ++ [e]) fd p :=
  ⟨h.free, h.smooth.snoc hfails hfork, h.process.snoc hcall⟩

theorem Ready.signal (h : Ready opened events fd p) :
    Ready opened (events ++ [.turn .signal]) fd p.signal :=
  ⟨h.free, h.smooth.snoc (by simp) (by simp), h.process.snoc_signal⟩

theorem Bindable.snoc (h : Bindable opened events fd p) (hcall : ∀ turn, e ≠ .turn turn)
    (hfails : ¬ e.Fails) (hfork : e ≠ .forked .error) : Bindable opened (events ++ [e]) fd p := by
  rcases h with hready | ⟨hfree, hfailed, hopen⟩
  · exact .inl (hready.snoc hcall hfails hfork)
  · exact .inr ⟨hfree, hfailed.snoc hfork, hopen⟩

theorem Bindable.signal (h : Bindable opened events fd p) :
    Bindable opened (events ++ [.turn .signal]) fd p.signal := by
  rcases h with hready | ⟨hfree, hfailed, hopen⟩
  · exact .inl hready.signal
  · exact .inr ⟨hfree, hfailed.snoc (by simp), hopen⟩

theorem Remains.mono {turns turns' : List Turn} {fds : Fd → Option Description}
    (h : Remains taken turns fds) (hsub : turns ⊆ turns') : Remains taken turns' fds :=
  { h with
    lost := fun n d hn hd => by
      obtain ⟨hclient, turn, hturn, hdrops⟩ := h.lost n d hn hd
      exact ⟨hclient, turn, hsub hturn, hdrops⟩ }

theorem Stopping.signal {ret : Int} (h : Stopping opened events fd ret p) :
    Stopping opened (events ++ [.turn .signal]) fd ret p.signal where
  free := h.free
  returns := h.returns.snoc (by simp)
  forked := by simpa using h.forked
  remains := by
    rw [turnsOf_turn]
    exact h.remains.mono (List.subset_append_left ..)

/-! ### Ways out -/

theorem Ready.failed (h : Ready opened events fd p) (hfails : e.Fails)
    (hfork : e ≠ .forked .error) (hcall : ∀ turn, e ≠ .turn turn) :
    Stopping opened (events ++ [e]) fd (-1) p where
  free := h.free
  returns := (failed_snoc h.smooth.notMem hfails hfork).returns
  forked := (failed_snoc h.smooth.notMem hfails hfork).2
  remains := by
    rw [turnsOf_call events hcall]
    exact h.process.onlyOpen.remains.close h.free

theorem Bindable.failed (h : Bindable opened events fd p) (hfails : e.Fails)
    (hfork : e ≠ .forked .error) (hcall : ∀ turn, e ≠ .turn turn) :
    Stopping opened (events ++ [e]) fd (-1) p := by
  rcases h with hready | ⟨hfree, hfailed, hopen⟩
  · exact hready.failed hfails hfork hcall
  · exact {
      free := hfree
      returns := (hfailed.snoc hfork).returns
      forked := (hfailed.snoc hfork).2
      remains := by
        show Remains opened _ (Function.update p.fds fd none)
        rw [hopen.close hfree]
        exact hopen.remains }

/-- The loops have ended. -/
theorem Serving.returned (h : Serving opened events fd p) (hret : p.Returned) :
    Stopping opened (events ++ [.go]) fd 0 p where
  free := h.free
  returns := h.smooth.returns.snoc (by simp)
  forked := by simpa using h.smooth.notMem
  remains := by
    obtain ⟨us, hrun⟩ := h.ran
    obtain ⟨hkept, hlost, hone⟩ := run_server_closes hrun
    have hremains : Remains (Function.update opened fd true) (turnsOf events) p.fds := {
      kept := hkept
      lost := fun n d hn hd => ⟨⟨_, (hlost hret n d hn hd).1⟩, (hlost hret n d hn hd).2⟩
      one := hone hret }
    rw [turnsOf_call events (by simp)]
    exact hremains.close h.free

/-- Nothing has been opened but what is to stay. -/
theorem Failed.exited (h : Failed events) (hp : OnlyOpen opened p.fds) :
    Exited opened events (-1) p where
  returns := h.returns
  remains _ := hp.remains
  listens hfork := absurd hfork h.2

/-! ### The log socket -/

/-- The first `syslog` opens its socket beside the one of main. -/
theorem Ready.log {n : Fd} {p' : Process} (h : Ready opened events fd p)
    (hopen : p.openFd n .other = some p') :
    Ready (Function.update opened n true) (events ++ [.logged (some n)]) fd p' := by
  obtain ⟨hfree, hp⟩ := h.process.socket hopen
  have hne : n ≠ fd := by
    rintro rfl
    rw [Function.update_self] at hfree
    cases hfree
  rw [Function.update_comm hne.symm] at hp
  exact ⟨(Function.update_of_ne hne.symm ..).trans h.free, h.smooth.snoc (by simp) (by simp),
    hp.snoc (by simp)⟩

/-! ### Every step -/

/-- A signal that does not find main in the loops. -/
theorem PlaceAt.signal (h : PlaceAt opened events s) (hserve : ∀ fd, s.pc ≠ .serve fd)
    (hexited : ∀ ret, s.pc ≠ .exited ret) :
    PlaceAt opened (events ++ [.turn .signal]) { s with process := s.process.signal } := by
  unfold PlaceAt at h ⊢
  cases hpc : s.pc with
  | socket =>
    rw [hpc] at h
    exact ⟨h.1.snoc (by simp) (by simp), h.2.snoc_signal⟩
  | log res =>
    rw [hpc] at h
    cases res with
    | none => exact ⟨h.1.snoc (by simp), h.2.snoc_signal⟩
    | some fd => exact Ready.signal h
  | setsockopt fd | fork fd | mutex fd | listen fd =>
    rw [hpc] at h
    exact Ready.signal h
  | getaddrinfo fd | bind fd =>
    rw [hpc] at h
    exact Bindable.signal h
  | serve fd => exact absurd hpc (hserve fd)
  | stop fd ret =>
    rw [hpc] at h
    exact Stopping.signal h
  | exited ret => exact absurd hpc (hexited ret)

/-- Every step but the first `syslog`. -/
theorem PlaceAt.step (h : PlaceAt opened events s) (hstep : s.step e = some (u, s'))
    (hlog : ∀ res, e ≠ .logged res) : PlaceAt opened (events ++ [e]) s' := by
  cases Program.step_cases hstep with
  | noSocket hpc =>
    rw [PlaceAt, hpc] at h
    exact ⟨failed_snoc h.1.notMem (by simp) (by simp), h.2.snoc (by simp)⟩
  | socket hpc hopen =>
    rw [PlaceAt, hpc] at h
    obtain ⟨hfree, hp⟩ := h.2.socket hopen
    exact ⟨hfree, h.1.snoc (by simp) (by simp), hp.snoc (by simp)⟩
  | noLog => exact absurd rfl (hlog _)
  | log => exact absurd rfl (hlog _)
  | reuses hpc =>
    rw [PlaceAt, hpc] at h
    exact .inl (h.snoc (by simp) (by simp) (by simp))
  | closes hpc =>
    rw [PlaceAt, hpc] at h
    exact .inr ⟨h.free, failed_snoc h.smooth.notMem (by simp) (by simp),
      h.process.onlyOpen.closed h.free⟩
  | resolves hpc =>
    rw [PlaceAt, hpc] at h
    exact h.snoc (by simp) (by simp) (by simp)
  | binds hpc hopen =>
    rw [PlaceAt, hpc] at h
    rcases h with hready | ⟨hfree, -, hclosed⟩
    · have hready' := hready.snoc (e := .answer true) (by simp) (by simp) (by simp)
      unfold PlaceAt
      dsimp only
      cases s.isDaemon with
      | true => exact hready'
      | false => exact hready'
    · -- a socket that `setsockopt` has closed is not bound
      rw [hclosed _, hfree] at hopen
      cases hopen
  | unbindable hpc =>
    rcases hpc with hpc | hpc
    all_goals
      rw [PlaceAt, hpc] at h
      exact h.failed (by simp) (by simp) (by simp)
  | forkFails hpc =>
    rw [PlaceAt, hpc] at h
    exact {
      returns := h.smooth.returns.snoc (by simp)
      remains := fun hnot => absurd (List.mem_append_right _ List.mem_cons_self) hnot
      listens := fun _ => ⟨_, h.free, h.process.onlyOpen⟩ }
  | parent hpc =>
    rw [PlaceAt, hpc] at h
    exact {
      free := h.free
      returns := h.smooth.returns.snoc (by simp)
      forked := by simpa using h.smooth.notMem
      remains := h.process.onlyOpen.remains.close h.free }
  | child hpc | allocates hpc =>
    rw [PlaceAt, hpc] at h
    exact h.snoc (by simp) (by simp) (by simp)
  | listens hpc =>
    -- the loops start
    rw [PlaceAt, hpc] at h
    exact ⟨h.free, h.smooth.snoc (by simp) (by simp), (h.process.snoc (by simp)).run⟩
  | unserved hpc =>
    rcases hpc with hpc | hpc
    all_goals
      rw [PlaceAt, hpc] at h
      exact h.failed (by simp) (by simp) (by simp)
  | turn hpc hturn =>
    rw [PlaceAt, hpc] at h
    obtain ⟨hfree, hsmooth, us, hrun⟩ := h
    unfold PlaceAt
    simp only [hpc]
    refine ⟨hfree, hsmooth.snoc (by simp) (by simp), ?_⟩
    rw [turnsOf_turn]
    exact ⟨_, run_snoc hrun hturn⟩
  | returns hpc hret =>
    rw [PlaceAt, hpc] at h
    exact h.returned hret
  | exits hpc =>
    rw [PlaceAt, hpc] at h
    exact {
      returns := h.returns.snoc (by simp)
      remains := fun _ => by
        rw [turnsOf_call events (by simp)]
        exact h.remains
      listens := fun hfork => absurd hfork (by simpa using h.forked) }
  | signal hserve hexited => exact h.signal hserve hexited

/-- The first `syslog` has found no log. -/
theorem PlaceAt.noLog {res : Option Fd} (h : PlaceAt opened events s) (hpc : s.pc = .log res) :
    PlaceAt opened (events ++ [.logged none]) { s with pc := afterLog res } := by
  rw [PlaceAt, hpc] at h
  cases res with
  | none => exact Failed.exited (h.1.snoc (by simp)) h.2.onlyOpen
  | some fd => exact Ready.snoc h (by simp) (by simp) (by simp)

/-- It has opened its socket. -/
theorem PlaceAt.log {res : Option Fd} {n : Fd} (h : PlaceAt opened events s)
    (hpc : s.pc = .log res) (hopen : s.process.openFd n .other = some p) :
    PlaceAt (Function.update opened n true) (events ++ [.logged (some n)])
      { s with pc := afterLog res, process := p } := by
  rw [PlaceAt, hpc] at h
  cases res with
  | none => exact Failed.exited (h.1.snoc (by simp)) (h.2.socket hopen).2.onlyOpen
  | some fd => exact Ready.log h hopen

theorem not_unlogged_afterLog (res : Option Fd) : ¬ (afterLog res).Unlogged := by
  cases res <;> simp [afterLog, ProgramPc.Unlogged]

/-- What has not been logged before the step is not logged after it. -/
theorem unlogged_step (hstep : s.step e = some (u, s')) (hpc : s'.pc.Unlogged) :
    s.pc.Unlogged ∧ ∀ res, e ≠ .logged res := by
  cases Program.step_cases hstep with
  | noSocket hat | socket hat => exact ⟨.inl hat, by simp⟩
  | noLog | log => exact absurd hpc (not_unlogged_afterLog _)
  | turn hat =>
    rw [ProgramPc.Unlogged, hat] at hpc
    simp at hpc
  | signal => exact ⟨hpc, by simp⟩
  | binds =>
    exfalso
    dsimp only at hpc
    split at hpc <;> simp [ProgramPc.Unlogged] at hpc
  | _ => simp [ProgramPc.Unlogged] at hpc

theorem ProgramAt.step (h : ProgramAt taken events s) (hstep : s.step e = some (u, s')) :
    ProgramAt taken (events ++ [e]) s' := by
  refine ⟨?_, fun hpc => ?_⟩
  · by_cases hlog : ∃ res, e = .logged res
    · obtain ⟨res, rfl⟩ := hlog
      cases Program.step_cases hstep with
      | noLog hpc =>
        have hnone := h.unlogged (.inr ⟨_, hpc⟩)
        have hplace := h.place.noLog hpc
        rw [held_of_none taken hnone] at hplace
        rw [held_noLog taken hnone]
        exact hplace
      | log hpc hopen =>
        have hnone := h.unlogged (.inr ⟨_, hpc⟩)
        have hplace := h.place.log hpc hopen
        rw [held_of_none taken hnone] at hplace
        rw [held_log taken hnone]
        exact hplace
    · have hcall : ∀ res, e ≠ .logged res := fun res heq => hlog ⟨res, heq⟩
      rw [held_call taken events hcall]
      exact h.place.step hstep hcall
  · obtain ⟨hbefore, hcall⟩ := unlogged_step hstep hpc
    rw [logFd_call events hcall]
    exact h.unlogged hbefore

/-! ### What stays open -/

theorem OnlyOpen.kept (h : OnlyOpen opened p.fds) (n : Fd) (hn : opened n = true) :
    p.fds n = some .other := by
  rw [h n, if_pos hn]

/-- A number that is open is not the one of the socket. -/
theorem update_of_open (hfree : opened fd = false) {n : Fd} (hn : opened n = true) :
    Function.update opened fd true n = true := by
  have hne : n ≠ fd := by
    rintro rfl
    rw [hfree] at hn
    cases hn
  rw [Function.update_of_ne hne, hn]

theorem Ready.kept (h : Ready opened events fd p) (n : Fd) (hn : opened n = true) :
    p.fds n = some .other :=
  h.process.onlyOpen.kept n (update_of_open h.free hn)

theorem Bindable.kept (h : Bindable opened events fd p) (n : Fd) (hn : opened n = true) :
    p.fds n = some .other := by
  rcases h with hready | ⟨-, -, hopen⟩
  · exact hready.kept n hn
  · exact hopen.kept n hn

theorem Stopping.kept {ret : Int} (h : Stopping opened events fd ret p) (n : Fd)
    (hn : opened n = true) : p.fds n = some .other := by
  have hne : n ≠ fd := by
    rintro rfl
    rw [h.free] at hn
    cases hn
  exact (Function.update_of_ne hne ..).symm.trans (h.remains.kept n hn)

theorem Exited.kept {ret : Int} (h : Exited opened events ret p) (n : Fd)
    (hn : opened n = true) : p.fds n = some .other := by
  by_cases hfork : .forked .error ∈ events
  · obtain ⟨fd, hfree, hopen⟩ := h.listens hfork
    exact hopen.kept n (update_of_open hfree hn)
  · exact (h.remains hfork).kept n hn

theorem PlaceAt.kept (h : PlaceAt opened events s) (n : Fd) (hn : opened n = true) :
    s.process.fds n = some .other := by
  unfold PlaceAt at h
  cases hpc : s.pc with
  | socket =>
    rw [hpc] at h
    exact h.2.onlyOpen.kept n hn
  | log res =>
    rw [hpc] at h
    cases res with
    | none => exact h.2.onlyOpen.kept n hn
    | some fd => exact Ready.kept h n hn
  | setsockopt fd | fork fd | mutex fd | listen fd =>
    rw [hpc] at h
    exact Ready.kept h n hn
  | getaddrinfo fd | bind fd =>
    rw [hpc] at h
    exact Bindable.kept h n hn
  | serve fd =>
    rw [hpc] at h
    obtain ⟨us, hrun⟩ := h.ran
    exact (run_server_closes hrun).1 n (update_of_open h.free hn)
  | stop fd ret =>
    rw [hpc] at h
    exact Stopping.kept h n hn
  | exited ret =>
    rw [hpc] at h
    exact Exited.kept h n hn

end Step

/-! ## Runs -/

end Aesd.Server
