/-
  Aesd.Server.Simulation

  The process does what the connections do.  `Server.Connection` has the
  threads with their buffers and the device, and no main; `Server.Main` has
  main, the records and the descriptors, and no data.  Here a run of the first
  becomes one of the second: main accepts and creates a thread for every
  connection (`createAll`), and then the threads take the same steps
  (`Coupled.steps`), so that every connection is where its thread is
  (`process_runs_connections`).
-/
import Mathlib.Data.List.Dedup
import Aesd.Server.Lines
import Aesd.Server.Shutdown

namespace Aesd.Server

open Aesd.Lib
open Aesd.Lib.Monitor (Move LockOp)
open Aesd.Driver (Kernel)

/-! ## Main creates the threads -/

section Creation

variable {ts : List Tid} {p : Process} {t : Tid}

/-- While no thread has completed, the pass goes by all nodes and main gets to `accept`. -/
theorem pass_ends {done rest : List (Addr × Entry)}
    (hholds : p.slist.Holds ((done ++ rest).map nodeOf))
    (hlive : ∀ x ∈ rest, x.2.Live p.toRecords)
    (hfresh : ∀ k a, p.args k = some a → a.threadComplete = false) :
    ∃ us, run Process.step { p with pc := .visit (SList.link (rest.map nodeOf)) }
      (List.replicate (rest.length + 1) (.main .go)) = some (us, { p with pc := .accept }) := by
  induction rest generalizing done with
  | nil => exact ⟨[()], rfl⟩
  | cons x rest ih =>
    obtain ⟨datap, e⟩ := x
    rw [List.forall_mem_cons] at hlive
    obtain ⟨a, ha⟩ := connection_defined hholds hlive.1
    have hcomplete : a.threadComplete = false := by
      obtain ⟨c, -, hargs⟩ := Option.bind_eq_some_iff.mp ha
      exact hfresh _ a hargs
    have hkeeps : Process.step { p with pc := .visit (some datap) } (.main .go) =
        some ((), { p with pc := .visit (SList.link (rest.map nodeOf)) }) := by
      have hact := MainActs.keeps (s := { p with pc := .visit (some datap) }) rfl
        (cell_of_listed hholds) ha hcomplete
      exact congrArg (Option.map ((), ·)) hact.mainStep_eq
    have hsplit : done ++ (datap, e) :: rest = (done ++ [(datap, e)]) ++ rest := by simp
    rw [hsplit] at hholds
    obtain ⟨us, hrest⟩ := ih hholds hlive.2
    exact ⟨() :: us, run_cons_eq_some.mpr ⟨_, _, us, hkeeps, hrest, rfl⟩⟩

/-- Main is at the head of its loop, and the threads are `ts`, which have not begun. -/
structure Created (ts : List Tid) (p : Process) : Prop where
  sound : Sound p
  exclusive : Exclusive p
  pc_eq : p.pc = .loop
  quit_eq : p.quit = false
  joined_eq : p.joined = []
  mutex_eq : p.fileMutex = .unlocked
  spare : ∃ n, ∀ k, n ≤ k → p.fds k = none ∧ p.args k = none ∧ p.handles k = none
  fresh : ∀ k a, p.args k = some a → a.threadComplete = false ∧ a.threadCompleteSuccess = false
  begun : ∀ t th, p.threads t = some th → th = .start th.connectionData
  threads_iff : ∀ t, p.threads t ≠ none ↔ t ∈ ts

theorem created_start {taken : Fd → Bool} (hfree : ∃ n, ∀ fd, n ≤ fd → taken fd = false) :
    Created [] (.start taken) where
  sound := sound_start taken
  exclusive := exclusive_start taken
  pc_eq := rfl
  quit_eq := rfl
  joined_eq := rfl
  mutex_eq := rfl
  spare := by
    obtain ⟨n, hn⟩ := hfree
    refine ⟨n, fun k hle => ⟨?_, rfl, rfl⟩⟩
    show (if taken k then some Description.other else none) = none
    rw [hn k hle]
    rfl
  fresh := nofun
  begun := nofun
  threads_iff t := ⟨fun h => absurd rfl h, nofun⟩

/-- One more connection: main goes by the threads that it has, accepts, and creates `t`. -/
theorem Created.create (h : Created ts p) (ht : t ∉ ts) :
    ∃ turns us p', run Process.step p turns = some (us, p') ∧
      (∀ turn ∈ turns, turn.isMain = true) ∧ Created (t :: ts) p' := by
  obtain ⟨n, hn⟩ := h.spare
  obtain ⟨hfd, hargs, hhandle⟩ := hn n (Nat.le_refl n)
  have hthread : p.threads t = none := by
    by_contra hsome
    exact ht ((h.threads_iff t).mp hsome)
  obtain ⟨⟨pending, listed, hbooks, hholds, hplace⟩, -⟩ := h.sound
  obtain rfl : pending = [] := by
    unfold Place at hplace
    rw [h.pc_eq] at hplace
    exact hplace.1
  obtain ⟨datap, hcell⟩ := hholds.exists_free
  obtain ⟨l, hl, -⟩ := hholds.insert hcell ⟨n, n⟩
  -- the pass
  let p₁ : Process := { p with pc := .accept, pass := p.slist.toList, sawComplete := [] }
  have hpass : ∃ us, run Process.step p (List.replicate (listed.length + 2) (.main .go)) =
      some (us, p₁) := by
    have hstarts := (MainActs.passStarts h.pc_eq h.quit_eq).mainStep_eq
    rw [hholds.first_eq] at hstarts
    have hsplit : p.slist.Holds (([] ++ listed).map nodeOf) := hholds
    obtain ⟨us, hpass⟩ := pass_ends (p := { p with pass := p.slist.toList, sawComplete := [] })
      hsplit (fun x hx => hbooks.live x.2 (List.mem_map_of_mem hx))
      fun k a ha => (h.fresh k a ha).1
    exact ⟨() :: us, run_cons_eq_some.mpr
      ⟨(), _, us, congrArg (Option.map ((), ·)) hstarts, hpass, rfl⟩⟩
  -- the new descriptor
  let p₂ : Process := { p₁ with
    fds := Function.update p.fds n (some (.client p.accepts))
    pc := .setUp n, accepts := p.accepts + 1 }
  have haccepts : p₁.mainStep (.accepted (some n)) = some p₂ :=
    (MainActs.accepts (s := p₁) rfl hfd).mainStep_eq
  -- the arguments, the handle and the thread
  let m : Records := { p.toRecords with
    args := Function.update p.args n (some (.new p.accepts n))
    handles := Function.update (Function.update p.handles n (some none)) n (some (some t))
    threads := Function.update p.threads t (some (.start n))
    created := p.created ++ [t] }
  let p₃ : Process := { p₂ with toRecords := m, pc := .insert n n }
  have hset : p₂.setUp n (.created n n t) = some p₃ := by
    have hnewArgs : p₂.newArgs n (.new (p₂.accepts - 1) n) = some { p.toRecords with
        args := Function.update p.args n (some (.new p.accepts n)) } := by
      show Records.newArgs p.toRecords n (.new p.accepts n) = _
      rw [Records.newArgs, hargs]
    simp only [Process.setUp, hnewArgs, Option.bind_eq_bind, Option.bind_some, Records.newHandle,
      hhandle, Records.create, hthread]
    rfl
  have hsetsUp : p₂.mainStep (.setUp (.created n n t)) = some p₃ :=
    (MainActs.setsUp (s := p₂) rfl hset).mainStep_eq
  -- the node
  let p₄ : Process := { p₃ with slist := l, pc := .loop }
  have hinserts : p₃.mainStep (.node datap) = some p₄ :=
    (MainActs.inserts (s := p₃) rfl hl).mainStep_eq
  obtain ⟨us, hpass⟩ := hpass
  have hrun : run Process.step p (List.replicate (listed.length + 2) (.main .go) ++
      [.main (.accepted (some n)), .main (.setUp (.created n n t)), .main (.node datap)]) =
      some (us ++ [(), (), ()], p₄) := by
    refine run_append_eq_some.mpr ⟨p₁, us, _, hpass, ?_, rfl⟩
    refine run_cons_eq_some.mpr ⟨(), p₂, _, congrArg (Option.map ((), ·)) haccepts, ?_, rfl⟩
    refine run_cons_eq_some.mpr ⟨(), p₃, _, congrArg (Option.map ((), ·)) hsetsUp, ?_, rfl⟩
    exact run_singleton (congrArg (Option.map ((), ·)) hinserts)
  obtain ⟨hsound, hexclusive⟩ : Sound p₄ ∧ Exclusive p₄ :=
    run_inv (I := fun q => Sound q ∧ Exclusive q)
      (fun _ _ _ _ hq hstep => ⟨hq.1.step hstep, hq.2.step hq.1 hstep⟩) ⟨h.sound, h.exclusive⟩ hrun
  refine ⟨_, _, p₄, hrun, ?_, ?_⟩
  · intro turn hturn
    rcases List.mem_append.mp hturn with hturn | hturn
    · rw [List.eq_of_mem_replicate hturn]
      rfl
    · simp only [List.mem_cons, List.not_mem_nil, or_false] at hturn
      rcases hturn with rfl | rfl | rfl <;> rfl
  · exact {
      sound := hsound
      exclusive := hexclusive
      pc_eq := rfl
      quit_eq := h.quit_eq
      joined_eq := h.joined_eq
      mutex_eq := h.mutex_eq
      spare := by
        refine ⟨n + 1, fun k hlt => ?_⟩
        have hne : k ≠ n := Nat.ne_of_gt hlt
        obtain ⟨hfd', hargs', hhandle'⟩ := hn k (Nat.le_of_lt hlt)
        refine ⟨(Function.update_of_ne hne ..).trans hfd',
          (Function.update_of_ne hne ..).trans hargs', ?_⟩
        exact (Function.update_of_ne hne ..).trans ((Function.update_of_ne hne ..).trans hhandle')
      fresh := by
        intro k a ha
        by_cases hk : k = n
        · subst hk
          have hself : p₄.args k = some (.new p.accepts k) := Function.update_self ..
          rw [hself] at ha
          cases ha
          exact ⟨rfl, rfl⟩
        · exact h.fresh k a ((Function.update_of_ne hk ..).symm.trans ha)
      begun := by
        intro u th hu
        by_cases hut : u = t
        · subst hut
          have hself : p₄.threads u = some (.start n) := Function.update_self ..
          rw [hself] at hu
          cases hu
          rfl
        · exact h.begun u th ((Function.update_of_ne hut ..).symm.trans hu)
      threads_iff := by
        intro u
        rw [List.mem_cons, ← h.threads_iff]
        by_cases hut : u = t
        · subst hut
          exact ⟨fun _ => .inl rfl, fun _ => by
            show Function.update p.threads u _ u ≠ none
            rw [Function.update_self]
            nofun⟩
        · show Function.update p.threads t _ u ≠ none ↔ _
          rw [Function.update_of_ne hut]
          simp [hut] }

/-- Main creates as many threads as there are connections. -/
theorem Created.createAll {new : List Tid} (h : Created ts p) (hnodup : new.Nodup)
    (hnew : ∀ t ∈ new, t ∉ ts) :
    ∃ turns us p', run Process.step p turns = some (us, p') ∧
      (∀ turn ∈ turns, turn.isMain = true) ∧ Created (new.reverse ++ ts) p' := by
  induction new generalizing ts p with
  | nil => exact ⟨[], [], p, rfl, nofun, h⟩
  | cons t new ih =>
    obtain ⟨hnot, hnodup⟩ := List.nodup_cons.mp hnodup
    rw [List.forall_mem_cons] at hnew
    obtain ⟨turns, us, p₁, hone, hmain, h₁⟩ := h.create hnew.1
    have hnew' : ∀ u ∈ new, u ∉ t :: ts := by
      intro u hu hmem
      rcases List.mem_cons.mp hmem with rfl | hmem
      · exact hnot hu
      · exact hnew.2 u hu hmem
    obtain ⟨turns', us', p', hrest, hmain', h'⟩ := ih h₁ hnodup hnew'
    refine ⟨turns ++ turns', us ++ us', p', run_append_eq_some.mpr ⟨p₁, us, us', hone, hrest, rfl⟩,
      ?_, ?_⟩
    · intro turn hturn
      exact (List.mem_append.mp hturn).elim (hmain turn) (hmain' turn)
    · rw [List.reverse_cons, List.append_assoc]
      exact h'

end Creation

/-! ## The steps of the threads -/

/-- Only the two statements of the mutex are actions on it. -/
theorem action_lock {K : Kernel} {t : Tid} {r : Shared} {w : Worker} {e : Event}
    {m : Move Shared Worker Op} (hact : connectionThread K t r w e = some m) :
    (m.out.action = .lock ↔ m.lock = .acquire) ∧ (m.out.action = .unlock ↔ m.lock = .release) := by
  cases connectionThread_cases hact with
  | ioctl hpc hm =>
    obtain ⟨x, -, rfl⟩ := Option.map_eq_some_iff.mp hm
    exact ⟨⟨nofun, nofun⟩, nofun, nofun⟩
  | write hpc hm =>
    obtain ⟨x, -, rfl⟩ := Option.map_eq_some_iff.mp hm
    exact ⟨⟨nofun, nofun⟩, nofun, nofun⟩
  | read hpc hm =>
    obtain ⟨x, -, rfl⟩ := Option.map_eq_some_iff.mp hm
    exact ⟨⟨nofun, nofun⟩, nofun, nofun⟩
  | lock hpc => exact ⟨⟨fun _ => rfl, fun _ => rfl⟩, nofun, nofun⟩
  | begin hpc => exact ⟨⟨nofun, nofun⟩, nofun, nofun⟩
  | «open» hpc => exact ⟨⟨nofun, nofun⟩, nofun, nofun⟩
  | openFails hpc => exact ⟨⟨nofun, nofun⟩, nofun, nofun⟩
  | recvEnds hpc hnext => exact ⟨⟨nofun, nofun⟩, nofun, nofun⟩
  | recvIoctl hpc hnext => exact ⟨⟨nofun, nofun⟩, nofun, nofun⟩
  | recvWrite hpc hnext => exact ⟨⟨nofun, nofun⟩, nofun, nofun⟩
  | send hpc res => exact ⟨⟨nofun, nofun⟩, nofun, nofun⟩
  | @exit op todo hpc =>
    cases op with
    | unlock => exact ⟨⟨nofun, nofun⟩, fun _ => rfl, fun _ => rfl⟩
    | closeClient => exact ⟨⟨nofun, nofun⟩, nofun, nofun⟩
    | setSuccess success => exact ⟨⟨nofun, nofun⟩, nofun, nofun⟩
    | setComplete => exact ⟨⟨nofun, nofun⟩, nofun, nofun⟩
    | closeOutput => exact ⟨⟨nofun, nofun⟩, nofun, nofun⟩

/-- Numbers from some point on are free. -/
def Process.Bounded (p : Process) : Prop := ∃ n, ∀ fd, n ≤ fd → p.fds fd = none

theorem perform_bounded {p p₁ : Process} {t : Tid} {th : Thread} {a : ConnectionThreadArgs}
    {fd : Fd} {act : Action} (h : p.perform t th a fd act = some p₁) (hb : p.Bounded) :
    p₁.Bounded := by
  obtain ⟨n, hn⟩ := hb
  -- a number more may be taken
  have hupdate : ∀ (k : Fd) (d : Option Description),
      ∃ n, ∀ fd, n ≤ fd → Function.update p.fds k d fd = none := by
    intro k d
    refine ⟨max n (k + 1), fun fd hle => ?_⟩
    have hne : fd ≠ k := Nat.ne_of_gt (Nat.lt_of_succ_le ((Nat.le_max_right n _).trans hle))
    rw [Function.update_of_ne hne]
    exact hn fd ((Nat.le_max_left n _).trans hle)
  unfold Process.perform at h
  split at h
  case h_1 =>
    split at h
    case h_1 => cases h; exact ⟨n, hn⟩
    case h_2 => cases h
  case h_2 =>
    split at h
    case h_1 => cases h
    case h_2 => cases h; exact ⟨n, hn⟩
  case h_3 =>
    obtain ⟨-, rfl⟩ := openFd_eq_some h
    exact hupdate fd _
  case h_4 =>
    obtain ⟨k, -, rfl⟩ := Option.map_eq_some_iff.mp h
    exact hupdate k none
  case h_5 =>
    cases h
    exact hupdate a.clientFd none
  case h_6 => cases h; exact ⟨n, hn⟩

/-- The connections `ts` are where their threads are, and nobody has been joined. -/
structure Coupled (ts : List Tid) (s : State) (p : Process) : Prop where
  sound : Sound p
  exclusive : Exclusive p
  agrees : ∀ t ∈ ts, ∃ th a, p.threads t = some th ∧ p.args th.connectionData = some a ∧
    Agrees (s.locals t) (th.control a)
  joined : p.joined = []
  mutex : p.fileMutex = if s.owner = none then .unlocked else .locked
  bounded : p.Bounded

section Steps

variable {K : Kernel} {ts : List Tid} {s s' : State} {p p' : Process} {t : Tid}

/-- Two threads have two sets of arguments. -/
theorem Sound.connectionData_ne (h : Sound p) (hjoined : p.joined = []) {u : Tid} {th th' : Thread}
    (ht : p.threads t = some th) (hu : p.threads u = some th') (hne : u ≠ t) :
    th'.connectionData ≠ th.connectionData := by
  obtain ⟨⟨pending, listed, hbooks, -, -⟩, -⟩ := h
  intro heq
  exact hne (hbooks.data_inj hu (by simp [hjoined]) ht (by simp [hjoined]) heq)

/-- What a connection does, its thread can do. -/
theorem Coupled.step (h : Coupled ts s p) (ht : t ∈ ts) {e : Event} {o : Tid × Op}
    (hstep : step K s (t, e) = some (o, s')) :
    ∃ outcome fd p', p.step (.thread t outcome fd) = some ((), p') ∧ Coupled ts s' p' := by
  obtain ⟨m, hact, rfl, -, hlocals, hlock⟩ := Monitor.step_cases hstep
  obtain ⟨th, a, hth, ha, hagrees⟩ := h.agrees t ht
  obtain ⟨outcome, c, hc, hagrees'⟩ := connectionThread_control hact hagrees
  obtain ⟨hacquire, hrelease⟩ := action_lock hact
  obtain ⟨n, hn⟩ := h.bounded
  -- the mutex is there, and free if it is to be taken
  have hthere : p.fileMutex ≠ .destroyed := by
    rw [h.mutex]
    split <;> nofun
  have hfree : m.out.action = .lock → p.fileMutex = .unlocked := by
    intro heq
    obtain ⟨hkeep, -⟩ | ⟨-, howner, -⟩ | ⟨hrel, -⟩ := hlock
    · rw [hacquire.mp heq] at hkeep
      cases hkeep
    · rw [h.mutex, if_pos howner]
    · rw [hacquire.mp heq] at hrel
      cases hrel
  have hclose : m.out.action = .closeOutput → th.outputFd ≠ none := fun heq =>
    (h.exclusive.opened t th hth).closes (heq ▸ hc)
  have hperform : ∃ p₁, p.perform t th a n m.out.action = some p₁ :=
    perform_defined hfree (fun _ => hn n (Nat.le_refl n)) hthere hclose
  obtain ⟨p₁, hp₁⟩ := hperform
  obtain ⟨-, hlocks, hunlocks, hkeeps⟩ := perform_mutex hp₁
  have hbounded := perform_bounded hp₁ ⟨n, hn⟩
  obtain ⟨fileMutex, fds, closes, rfl, -⟩ := perform_eq_some hp₁
  have hstep' : p.step (.thread t outcome n) = some ((), { p with
      toRecords := p.setThread t (th.after c n m.out.action) (a.after c)
      fileMutex := fileMutex, fds := fds, closes := closes }) := by
    simp only [Process.step, Process.threadStep, hth, ha, hc, hp₁, Option.bind_eq_bind,
      Option.bind_some, Option.map_some]
  refine ⟨outcome, n, _, hstep', ?_⟩
  exact {
    sound := h.sound.step hstep'
    exclusive := h.exclusive.step h.sound hstep'
    agrees := by
      intro u hu
      by_cases hut : u = t
      · subst hut
        refine ⟨_, a.after c, Function.update_self .., Function.update_self .., ?_⟩
        rw [hlocals, Function.update_self]
        exact hagrees'
      · obtain ⟨th', a', hth', ha', hagree⟩ := h.agrees u hu
        have hne := h.sound.connectionData_ne h.joined hth hth' hut
        refine ⟨th', a', (Function.update_of_ne hut ..).trans hth', ?_, ?_⟩
        · exact (Function.update_of_ne hne ..).trans ha'
        · rw [hlocals, Function.update_of_ne hut]
          exact hagree
    joined := h.joined
    mutex := by
      obtain ⟨hkeep, howner⟩ | ⟨hacq, -, howner⟩ | ⟨hrel, -, howner⟩ := hlock
      · have hsame : fileMutex = p.fileMutex := by
          refine hkeeps (fun heq => ?_) fun heq => ?_
          · rw [hacquire.mp heq] at hkeep
            cases hkeep
          · rw [hrelease.mp heq] at hkeep
            cases hkeep
        rw [howner, ← h.mutex]
        exact hsame
      · rw [howner, if_neg (Option.some_ne_none t)]
        exact (hlocks (hacquire.mpr hacq)).2
      · rw [howner, if_pos rfl]
        exact (hunlocks (hrelease.mpr hrel)).2
    bounded := hbounded }

/-- The thread that takes the turn. -/
def Turn.worker : Turn → Option Tid
  | .thread t _ _ => some t
  | _ => none

/-- Threads that have not begun are where connections begin. -/
theorem Created.coupled (h : Created ts p) (stack : Tid → List Driver.Byte) :
    Coupled ts (.init stack) p where
  sound := h.sound
  exclusive := h.exclusive
  agrees t ht := by
    obtain ⟨th, hth⟩ := Option.ne_none_iff_exists'.mp ((h.threads_iff t).mpr ht)
    obtain ⟨⟨pending, listed, hbooks, -, -⟩, -⟩ := h.sound
    obtain ⟨e, he, -, hconn⟩ := hbooks.exists_entry hth (by simp [h.joined_eq])
    obtain ⟨a, ha⟩ := Option.ne_none_iff_exists'.mp (hbooks.live e he).args
    rw [hconn] at ha
    obtain ⟨hcomplete, hsuccess⟩ := h.fresh _ a ha
    have hcontrol : th.control a = .start := by
      rw [h.begun t th hth, Thread.control, hcomplete, hsuccess]
      rfl
    refine ⟨th, a, hth, ha, ?_⟩
    rw [hcontrol]
    exact agrees_start (stack t)
  joined := h.joined_eq
  mutex := h.mutex_eq
  bounded := by
    obtain ⟨n, hn⟩ := h.spare
    exact ⟨n, fun fd hle => (hn fd hle).1⟩

/-- The same of any number of steps. -/
theorem Coupled.steps {events : List (Tid × Event)} {outs : List (Tid × Op)} (h : Coupled ts s p)
    (hevents : ∀ x ∈ events, x.1 ∈ ts) (hrun : run (Server.step K) s events = some (outs, s')) :
    ∃ turns us p', run Process.step p turns = some (us, p') ∧
      turns.map Turn.worker = events.map (fun x => some x.1) ∧ Coupled ts s' p' := by
  induction events generalizing s p outs with
  | nil =>
    obtain ⟨-, rfl⟩ := Prod.mk.inj (Option.some.inj hrun)
    exact ⟨[], [], p, rfl, rfl, h⟩
  | cons x events ih =>
    rw [List.forall_mem_cons] at hevents
    obtain ⟨o, s₁, outs', hone, hrest, -⟩ := run_cons_eq_some.mp hrun
    obtain ⟨outcome, fd, p₁, hp₁, h₁⟩ := h.step hevents.1 hone
    obtain ⟨turns, us, p', hturns, hworkers, h'⟩ := ih h₁ hevents.2 hrest
    refine ⟨.thread x.1 outcome fd :: turns, () :: us, p', ?_, ?_, h'⟩
    · exact run_cons_eq_some.mpr ⟨_, p₁, us, hp₁, hturns, rfl⟩
    · rw [List.map_cons, List.map_cons, hworkers]
      rfl

end Steps

/-- Every run of the connections on an empty device is one of the process: main creates their
    threads, and these take the same steps in the same order.  Each thread that has taken a
    step is where its connection is, and the mutex is taken when the connections have it. -/
theorem process_runs_connections {K : Kernel} {taken : Fd → Bool}
    {stack : Tid → List Driver.Byte} {events : List (Tid × Event)} {outs : List (Tid × Op)}
    {s : State} (hfree : ∃ n, ∀ fd, n ≤ fd → taken fd = false)
    (hrun : run (Server.step K) (.init stack) events = some (outs, s)) :
    ∃ creates turns us p, run Process.step (.start taken) (creates ++ turns) = some (us, p) ∧
      (∀ turn ∈ creates, turn.isMain = true) ∧
      turns.map Turn.worker = events.map (fun x => some x.1) ∧
      (∀ t ∈ events.map Prod.fst, ∃ th a, p.threads t = some th ∧
        p.args th.connectionData = some a ∧ Agrees (s.locals t) (th.control a)) ∧
      (p.fileMutex = .locked ↔ s.owner ≠ none) := by
  obtain ⟨creates, us₁, p₁, hcreates, hmain, h₁⟩ := (created_start hfree).createAll
    (List.nodup_dedup (events.map Prod.fst)) fun _ _ => List.not_mem_nil
  rw [List.append_nil] at h₁
  have hmem : ∀ t ∈ events.map Prod.fst, t ∈ (events.map Prod.fst).dedup.reverse := fun t ht =>
    List.mem_reverse.mpr (List.mem_dedup.mpr ht)
  obtain ⟨turns, us₂, p, hturns, hworkers, h⟩ := (h₁.coupled stack).steps
    (fun x hx => hmem x.1 (List.mem_map_of_mem hx)) hrun
  refine ⟨creates, turns, us₁ ++ us₂, p,
    run_append_eq_some.mpr ⟨p₁, us₁, us₂, hcreates, hturns, rfl⟩, hmain, hworkers,
    fun t ht => h.agrees t (hmem t ht), ?_⟩
  rw [h.mutex]
  by_cases hnone : s.owner = none
  · rw [if_pos hnone]
    exact ⟨nofun, fun hsome => absurd hnone hsome⟩
  · rw [if_neg hnone]
    exact ⟨fun _ => hnone, fun _ => rfl⟩

theorem sharedLine_runs :
    ∃ outs s, run (Server.step .page) (.init fun _ => []) sharedLine = some (outs, s) ∧
      ∃ creates turns us p,
        run Process.step (.start fun fd => decide (fd < 4)) (creates ++ turns) = some (us, p) ∧
        turns.map Turn.worker = sharedLine.map (fun x => some x.1) ∧
        (∀ t ∈ sharedLine.map Prod.fst, ∃ th a, p.threads t = some th ∧
          p.args th.connectionData = some a ∧ Agrees (s.locals t) (th.control a)) ∧
        (p.fileMutex = .locked ↔ s.owner ≠ none) := by
  have hsome : (run (Server.step .page) (.init fun _ => []) sharedLine).isSome = true := by decide
  obtain ⟨⟨outs, s⟩, hrun⟩ := Option.isSome_iff_exists.mp hsome
  have hfree : ∃ n, ∀ fd, n ≤ fd → decide (fd < 4) = false :=
    ⟨4, fun fd hle => decide_eq_false (Nat.not_lt.mpr hle)⟩
  obtain ⟨creates, turns, us, p, hp, -, hworkers, hagrees, hmutex⟩ :=
    process_runs_connections hfree hrun
  exact ⟨outs, s, hrun, creates, turns, us, p, hp, hworkers, hagrees, hmutex⟩

end Aesd.Server
