/-
  Aesd.Server.Main

  `run_server` with the connection threads it creates: the main loop (reap,
  accept, set up, create, insert), the shutdown that follows it, and any number
  of threads, each with the control flow of `Server.Worker`.  Main, the threads
  and the signal take their steps in any order.

  The descriptors are those of the process: an `accept` or an `open` hands out
  any number that is free, and a `close` frees whatever the number refers to.
  A step is undefined where the code would follow a pointer to a record that
  is not live.

  `created`, `joined`, and the fields from `accepts` on, are histories that no
  code reads.
-/
import Aesd.Lib.SList
import Aesd.Server.Worker

namespace Aesd.Server

open Aesd.Lib

/-- The address of a record that `malloc` handed out. -/
abbrev Addr := Nat

/-- A number that names an open file. -/
abbrev Fd := Nat

/-- What a descriptor refers to: the socket of the `k`-th accepted connection, the
    device as thread `t` opened it, or what was open before. -/
inductive Description where
  | client (k : Nat)
  | output (t : Tid)
  | other
  deriving DecidableEq, Repr

inductive Party where
  | main
  | thread (t : Tid)
  deriving DecidableEq, Repr

/-- A `close`: who made it, which file it was to close, and which file, if any,
    the number referred to. -/
structure Close where
  party : Party
  meant : Description
  found : Option Description
  deriving DecidableEq, Repr

/-! ## Records -/

/-- `struct slist_data_s` but for its link. -/
structure SlistData where
  connection : Addr
  thread : Addr
  deriving DecidableEq, Repr

/-- `struct connection_thread_args`, but for the mutex (there is one) and the
    client's address.  `client` says which connection `clientFd` was got for. -/
structure ConnectionThreadArgs where
  client : Nat
  clientFd : Fd
  threadComplete : Bool
  threadCompleteSuccess : Bool

/-- A thread: its arguments, and the variables of `connection_thread`. -/
structure Thread where
  connectionData : Addr
  pc : Pc
  recvRet : Option Int
  sendRet : Option Int
  outputFd : Option Fd

def Thread.start (tData : Addr) : Thread := ⟨tData, .begin, none, none, none⟩

/-- The thread has returned. -/
def Thread.Returned (th : Thread) : Prop := th.pc = .exit []

instance (th : Thread) : Decidable th.Returned := inferInstanceAs (Decidable (th.pc = .exit []))

/-- The control flow of a thread with these arguments. -/
def Thread.control (th : Thread) (a : ConnectionThreadArgs) : Control :=
  ⟨th.pc, a.threadComplete, a.threadCompleteSuccess, th.recvRet, th.sendRet⟩

/-- The list with its nodes, the other records by their addresses, and the threads.
    A `pthread_t` is `none` until `pthread_create` has written it. -/
structure Records where
  slist : SList Addr SlistData
  args : Addr → Option ConnectionThreadArgs
  handles : Addr → Option (Option Tid)
  threads : Tid → Option Thread
  created : List Tid
  joined : List Tid

/-! ## The process -/

inductive FileMutex where
  | unlocked
  | locked
  | destroyed
  deriving DecidableEq, Repr

/-- Where main is in `run_server`, with the variables that it still needs. -/
inductive MainPc where
  -- while (!quit)
  | loop
  -- SLIST_FOREACH_SAFE at `datap`
  | visit (datap : Option Addr)
  | join (datap : Addr) (tmp : Option Addr)
  | reap (datap : Addr) (tmp : Option Addr)
  | accept
  | setUp (clientFd : Fd)
  | insert (tData thread : Addr)
  -- while (!SLIST_EMPTY(&head))
  | shutdown
  | shutdownJoin (datap : Addr)
  | shutdownReap (datap : Addr)
  | destroy
  | returned
  deriving DecidableEq, Repr

/-- The process. `accepts` counts the connections, and `closes` are all the `close` calls.
    `pass` is the list as the latest pass of the reaping loop found it, and `sawComplete`
    are the nodes that the pass has seen complete. -/
structure Process extends Records where
  pc : MainPc
  quit : Bool
  fileMutex : FileMutex
  fds : Fd → Option Description
  accepts : Nat
  closes : List Close
  pass : Option (List (Addr × SlistData))
  sawComplete : List Addr

def Records.start : Records :=
  { slist := .empty, args := fun _ => none, handles := fun _ => none, threads := fun _ => none,
    created := [], joined := [] }

/-- `run_server` past `listen`; the numbers in `taken` name files that are open. -/
def Process.start (taken : Fd → Bool) : Process :=
  { Records.start with
    pc := .loop, quit := false, fileMutex := .unlocked
    fds := fun fd => if taken fd then some .other else none
    accepts := 0, closes := [], pass := none, sawComplete := [] }

/-- `close(fd)` by `party`, which takes `fd` for `meant`. -/
def Process.close (s : Process) (party : Party) (meant : Description) (fd : Fd) : Process :=
  { s with
    fds := Function.update s.fds fd none
    closes := s.closes ++ [⟨party, meant, s.fds fd⟩] }

/-- The number `fd`, which is free, now refers to `d`. -/
def Process.openFd (s : Process) (fd : Fd) (d : Description) : Option Process :=
  match s.fds fd with
  | none => some { s with fds := Function.update s.fds fd (some d) }
  | some _ => none

/-! ## The threads -/

/-- What an action of thread `t` does, but for its own variables and its arguments.
    `fd` is the number that `open` answers. -/
def Process.perform (s : Process) (t : Tid) (th : Thread) (a : ConnectionThreadArgs) (fd : Fd) :
    Action → Option Process
  | .lock =>
    match s.fileMutex with
    | .unlocked => some { s with fileMutex := .locked }
    -- the thread waits, or the mutex is gone
    | _ => none
  | .unlock =>
    match s.fileMutex with
    | .destroyed => none
    | _ => some { s with fileMutex := .unlocked }
  | .open true => s.openFd fd (.output t)
  | .closeOutput => th.outputFd.map (s.close (.thread t) (.output t))
  | .closeClient => some (s.close (.thread t) (.client a.client) a.clientFd)
  | _ => some s

/-- The thread behind the action that leads to `c`. -/
def Thread.after (th : Thread) (c : Control) (fd : Fd) (act : Action) : Thread :=
  { th with
    pc := c.pc, recvRet := c.recvRet, sendRet := c.sendRet
    outputFd := if act = .open true then some fd else th.outputFd }

/-- Its arguments behind it. -/
def ConnectionThreadArgs.after (a : ConnectionThreadArgs) (c : Control) : ConnectionThreadArgs :=
  { a with threadComplete := c.threadComplete, threadCompleteSuccess := c.threadCompleteSuccess }

/-- Thread `t` has become `th`, and its arguments `a`. -/
def Records.setThread (m : Records) (t : Tid) (th : Thread) (a : ConnectionThreadArgs) : Records :=
  { m with
    threads := Function.update m.threads t (some th)
    args := Function.update m.args th.connectionData (some a) }

/-- A step of thread `t`, which reads and writes its arguments. -/
def Process.threadStep (s : Process) (t : Tid) (o : Outcome) (fd : Fd) : Option Process := do
  let th ← s.threads t
  let a ← s.args th.connectionData
  let (act, c) ← (th.control a).step o
  let s' ← s.perform t th a fd act
  some { s' with toRecords := s'.setThread t (th.after c fd act) (a.after c) }

/-! ## Main -/

/-- What lines 125 to 152 come to: a `malloc` fails, `pthread_create` fails, or there is a
    new thread. -/
inductive SetUp where
  | noArgs
  | noThread (tData : Addr)
  | notCreated (tData thread : Addr)
  | created (tData thread : Addr) (t : Tid)

/-- What main's statement answers. -/
inductive Answer where
  | go
  | accepted (clientFd : Option Fd)
  | setUp (res : SetUp)
  -- the address of a new node
  | node (datap : Addr)

/-- The arguments as lines 140 to 145 fill them. -/
def ConnectionThreadArgs.new (client : Nat) (clientFd : Fd) : ConnectionThreadArgs :=
  ⟨client, clientFd, false, false⟩

/-- `malloc` of the arguments; the address must be free. -/
def Records.newArgs (m : Records) (tData : Addr) (a : ConnectionThreadArgs) : Option Records :=
  match m.args tData with
  | none => some { m with args := Function.update m.args tData (some a) }
  | some _ => none

/-- `malloc` of a `pthread_t`, which holds nothing yet. -/
def Records.newHandle (m : Records) (thread : Addr) : Option Records :=
  match m.handles thread with
  | none => some { m with handles := Function.update m.handles thread (some none) }
  | some _ => none

/-- `pthread_create(thread, NULL, connection_thread, tData)`: thread `t` is new. -/
def Records.create (m : Records) (tData thread : Addr) (t : Tid) : Option Records :=
  match m.threads t with
  | none => some { m with
      handles := Function.update m.handles thread (some (some t))
      threads := Function.update m.threads t (some (.start tData))
      created := m.created ++ [t] }
  | some _ => none

/-- Lines 125 to 152. Nobody else looks at what is set up here before the thread runs. -/
def Process.setUp (s : Process) (clientFd : Fd) : SetUp → Option Process
  | .noArgs => some { s with pc := .loop, quit := true }
  | .noThread tData => do
    let m ← s.newArgs tData (.new (s.accepts - 1) clientFd)
    some { s with toRecords := m, pc := .loop, quit := true }
  | .notCreated tData thread => do
    let m ← s.newArgs tData (.new (s.accepts - 1) clientFd)
    let m ← m.newHandle thread
    some { s with toRecords := m, pc := .loop, quit := true }
  | .created tData thread t => do
    let m ← s.newArgs tData (.new (s.accepts - 1) clientFd)
    let m ← m.newHandle thread
    let m ← m.create tData thread t
    some { s with toRecords := m, pc := .insert tData thread }

/-- `pthread_join(*(datap->thread), NULL)`: main waits until the thread has returned. -/
def Records.join (m : Records) (datap : Addr) : Option Records := do
  let c ← m.slist.cell datap
  let handle ← m.handles c.data.thread
  let t ← handle
  let th ← m.threads t
  if th.Returned then some { m with joined := m.joined ++ [t] } else none

/-- `free(datap->thread)`, `free(datap->connection)`, then `unlink` and `free(datap)`. -/
def Records.reap (m : Records) (datap : Addr)
    (unlink : SList Addr SlistData → Option (SList Addr SlistData)) : Option Records := do
  let c ← m.slist.cell datap
  let _ ← m.handles c.data.thread
  let _ ← m.args c.data.connection
  let l ← (unlink m.slist).bind (SList.free · datap)
  some { m with
    handles := Function.update m.handles c.data.thread none
    args := Function.update m.args c.data.connection none
    slist := l }

/-- `datap->connection`. -/
def Records.connection (m : Records) (datap : Addr) : Option ConnectionThreadArgs := do
  let c ← m.slist.cell datap
  m.args c.data.connection

/-- The next step of main. -/
def Process.mainStep (s : Process) (ans : Answer) : Option Process :=
  match s.pc, ans with
  | .loop, .go =>
    if s.quit then some { s with pc := .shutdown }
    else some { s with pc := .visit s.slist.first, pass := s.slist.toList, sawComplete := [] }
  | .visit none, .go => some { s with pc := .accept }
  | .visit (some datap), .go => do
    let c ← s.slist.cell datap
    let a ← s.connection datap
    if a.threadComplete then
      some { s with pc := .join datap c.next, sawComplete := s.sawComplete ++ [datap] }
    else some { s with pc := .visit c.next }
  | .join datap tmp, .go => do
    let m ← s.join datap
    some { s with toRecords := m, pc := .reap datap tmp }
  | .reap datap tmp, .go => do
    let m ← s.reap datap (SList.remove · datap)
    some { s with toRecords := m, pc := .visit tmp }
  | .accept, .accepted none => some { s with pc := .loop }
  | .accept, .accepted (some clientFd) => do
    let s' ← s.openFd clientFd (.client s.accepts)
    some { s' with pc := .setUp clientFd, accepts := s.accepts + 1 }
  | .setUp clientFd, .setUp res => s.setUp clientFd res
  | .insert tData thread, .node datap => do
    let l ← (s.slist.alloc datap ⟨tData, thread⟩).bind (SList.insertHead · datap)
    some { s with slist := l, pc := .loop }
  | .shutdown, .go =>
    match s.slist.first with
    | none => some { s with pc := .destroy }
    | some datap => do
      let a ← s.connection datap
      some { s.close .main (.client a.client) a.clientFd with pc := .shutdownJoin datap }
  | .shutdownJoin datap, .go => do
    let m ← s.join datap
    some { s with toRecords := m, pc := .shutdownReap datap }
  | .shutdownReap datap, .go => do
    let m ← s.reap datap SList.removeHead
    some { s with toRecords := m, pc := .shutdown }
  | .destroy, .go => some { s with pc := .returned, fileMutex := .destroyed }
  | _, _ => none

/-- What a step of main can be. -/
inductive MainActs (s : Process) : Answer → Process → Prop where
  | quits (hpc : s.pc = .loop) (hquit : s.quit = true) :
    MainActs s .go { s with pc := .shutdown }
  | passStarts (hpc : s.pc = .loop) (hquit : s.quit = false) :
    MainActs s .go
      { s with pc := .visit s.slist.first, pass := s.slist.toList, sawComplete := [] }
  | passEnds (hpc : s.pc = .visit none) : MainActs s .go { s with pc := .accept }
  | sees {datap : Addr} {c : Cell Addr SlistData} {a : ConnectionThreadArgs}
    (hpc : s.pc = .visit (some datap)) (hcell : s.slist.cell datap = some c)
    (hargs : s.connection datap = some a) (hcomplete : a.threadComplete = true) :
    MainActs s .go
      { s with pc := .join datap c.next, sawComplete := s.sawComplete ++ [datap] }
  | keeps {datap : Addr} {c : Cell Addr SlistData} {a : ConnectionThreadArgs}
    (hpc : s.pc = .visit (some datap)) (hcell : s.slist.cell datap = some c)
    (hargs : s.connection datap = some a) (hcomplete : a.threadComplete = false) :
    MainActs s .go { s with pc := .visit c.next }
  | joins {datap : Addr} {tmp : Option Addr} {m : Records} (hpc : s.pc = .join datap tmp)
    (hjoin : s.join datap = some m) :
    MainActs s .go { s with toRecords := m, pc := .reap datap tmp }
  | reaps {datap : Addr} {tmp : Option Addr} {m : Records} (hpc : s.pc = .reap datap tmp)
    (hreap : s.reap datap (SList.remove · datap) = some m) :
    MainActs s .go { s with toRecords := m, pc := .visit tmp }
  | acceptFails (hpc : s.pc = .accept) : MainActs s (.accepted none) { s with pc := .loop }
  | accepts {clientFd : Fd} (hpc : s.pc = .accept) (hfree : s.fds clientFd = none) :
    MainActs s (.accepted (some clientFd)) { s with
      fds := Function.update s.fds clientFd (some (.client s.accepts))
      pc := .setUp clientFd, accepts := s.accepts + 1 }
  | setsUp {clientFd : Fd} {res : SetUp} {s' : Process} (hpc : s.pc = .setUp clientFd)
    (hset : s.setUp clientFd res = some s') : MainActs s (.setUp res) s'
  | inserts {tData thread datap : Addr} {l : SList Addr SlistData}
    (hpc : s.pc = .insert tData thread)
    (hinsert : (s.slist.alloc datap ⟨tData, thread⟩).bind (SList.insertHead · datap) = some l) :
    MainActs s (.node datap) { s with slist := l, pc := .loop }
  | empties (hpc : s.pc = .shutdown) (hempty : s.slist.first = none) :
    MainActs s .go { s with pc := .destroy }
  | closes {datap : Addr} {a : ConnectionThreadArgs} (hpc : s.pc = .shutdown)
    (hfirst : s.slist.first = some datap) (hargs : s.connection datap = some a) :
    MainActs s .go
      { s.close .main (.client a.client) a.clientFd with pc := .shutdownJoin datap }
  | shutdownJoins {datap : Addr} {m : Records} (hpc : s.pc = .shutdownJoin datap)
    (hjoin : s.join datap = some m) :
    MainActs s .go { s with toRecords := m, pc := .shutdownReap datap }
  | shutdownReaps {datap : Addr} {m : Records} (hpc : s.pc = .shutdownReap datap)
    (hreap : s.reap datap SList.removeHead = some m) :
    MainActs s .go { s with toRecords := m, pc := .shutdown }
  | destroys (hpc : s.pc = .destroy) :
    MainActs s .go { s with pc := .returned, fileMutex := .destroyed }

theorem openFd_eq_some {s s' : Process} {fd : Fd} {d : Description}
    (h : s.openFd fd d = some s') :
    s.fds fd = none ∧ s' = { s with fds := Function.update s.fds fd (some d) } := by
  unfold Process.openFd at h
  split at h
  case h_1 hfree => exact ⟨hfree, (Option.some.inj h).symm⟩
  case h_2 => cases h

theorem mainStep_cases {s s' : Process} {ans : Answer} (h : s.mainStep ans = some s') :
    MainActs s ans s' := by
  unfold Process.mainStep at h
  split at h
  case h_1 hpc =>
    split at h
    · cases h
      exact .quits hpc ‹_›
    · cases h
      exact .passStarts hpc (by simpa using ‹¬ s.quit = true›)
  case h_2 hpc => cases h; exact .passEnds hpc
  case h_3 datap hpc =>
    obtain ⟨c, hcell, h⟩ := Option.bind_eq_some_iff.mp h
    obtain ⟨a, hargs, h⟩ := Option.bind_eq_some_iff.mp h
    split at h
    · cases h
      exact .sees hpc hcell hargs ‹_›
    · cases h
      exact .keeps hpc hcell hargs (by simpa using ‹¬ a.threadComplete = true›)
  case h_4 hpc =>
    obtain ⟨m, hjoin, h⟩ := Option.bind_eq_some_iff.mp h
    cases h
    exact .joins hpc hjoin
  case h_5 hpc =>
    obtain ⟨m, hreap, h⟩ := Option.bind_eq_some_iff.mp h
    cases h
    exact .reaps hpc hreap
  case h_6 hpc => cases h; exact .acceptFails hpc
  case h_7 hpc =>
    obtain ⟨s₁, hopen, h⟩ := Option.bind_eq_some_iff.mp h
    obtain ⟨hfree, rfl⟩ := openFd_eq_some hopen
    cases h
    exact .accepts hpc hfree
  case h_8 hpc => exact .setsUp hpc h
  case h_9 hpc =>
    obtain ⟨l, hinsert, h⟩ := Option.bind_eq_some_iff.mp h
    cases h
    exact .inserts hpc hinsert
  case h_10 hpc =>
    split at h
    case h_1 hempty => cases h; exact .empties hpc hempty
    case h_2 datap hfirst =>
      obtain ⟨a, hargs, h⟩ := Option.bind_eq_some_iff.mp h
      cases h
      exact .closes hpc hfirst hargs
  case h_11 hpc =>
    obtain ⟨m, hjoin, h⟩ := Option.bind_eq_some_iff.mp h
    cases h
    exact .shutdownJoins hpc hjoin
  case h_12 hpc =>
    obtain ⟨m, hreap, h⟩ := Option.bind_eq_some_iff.mp h
    cases h
    exact .shutdownReaps hpc hreap
  case h_13 hpc => cases h; exact .destroys hpc
  case h_14 => cases h

/-- And each of them is a step of main. -/
theorem MainActs.mainStep_eq {s s' : Process} {ans : Answer} (h : MainActs s ans s') :
    s.mainStep ans = some s' := by
  unfold Process.mainStep
  cases h with
  | quits hpc hquit =>
    rw [hpc]
    exact if_pos hquit
  | passStarts hpc hquit =>
    rw [hpc]
    exact if_neg (by simp [hquit])
  | passEnds hpc => rw [hpc]
  | sees hpc hcell hargs hcomplete =>
    rw [hpc]
    simp only [hcell, hargs, Option.bind_eq_bind, Option.bind_some, if_pos hcomplete]
  | keeps hpc hcell hargs hcomplete =>
    rw [hpc]
    simp [hcell, hargs, hcomplete]
  | joins hpc hjoin =>
    rw [hpc]
    simp only [hjoin, Option.bind_eq_bind, Option.bind_some]
  | reaps hpc hreap =>
    rw [hpc]
    simp only [hreap, Option.bind_eq_bind, Option.bind_some]
  | acceptFails hpc => rw [hpc]
  | accepts hpc hfree =>
    rw [hpc]
    simp only [Process.openFd, hfree, Option.bind_eq_bind, Option.bind_some]
  | setsUp hpc hset =>
    rw [hpc]
    exact hset
  | inserts hpc hinsert =>
    rw [hpc]
    simp only [hinsert, Option.bind_eq_bind, Option.bind_some]
  | empties hpc hempty =>
    rw [hpc]
    simp only [hempty]
  | closes hpc hfirst hargs =>
    rw [hpc]
    simp only [hfirst, hargs, Option.bind_eq_bind, Option.bind_some]
  | shutdownJoins hpc hjoin =>
    rw [hpc]
    simp only [hjoin, Option.bind_eq_bind, Option.bind_some]
  | shutdownReaps hpc hreap =>
    rw [hpc]
    simp only [hreap, Option.bind_eq_bind, Option.bind_some]
  | destroys hpc => rw [hpc]

/-- Setting up changes the records, and main leaves for the loop or for the list. -/
theorem setUp_eq_some {s s' : Process} {clientFd : Fd} {res : SetUp}
    (h : s.setUp clientFd res = some s') :
    ∃ m pc quit, s' = { s with toRecords := m, pc := pc, quit := quit } := by
  cases res with
  | noArgs => exact ⟨_, _, _, (Option.some.inj h).symm⟩
  | noThread tData =>
    obtain ⟨m, -, h⟩ := Option.bind_eq_some_iff.mp h
    exact ⟨_, _, _, (Option.some.inj h).symm⟩
  | notCreated tData thread =>
    obtain ⟨m, -, h⟩ := Option.bind_eq_some_iff.mp h
    obtain ⟨m₁, -, h⟩ := Option.bind_eq_some_iff.mp h
    exact ⟨_, _, _, (Option.some.inj h).symm⟩
  | created tData thread t =>
    obtain ⟨m, -, h⟩ := Option.bind_eq_some_iff.mp h
    obtain ⟨m₁, -, h⟩ := Option.bind_eq_some_iff.mp h
    obtain ⟨m₂, -, h⟩ := Option.bind_eq_some_iff.mp h
    exact ⟨_, _, _, (Option.some.inj h).symm⟩

/-- An action changes the mutex and the descriptors, and never destroys the mutex. -/
theorem perform_eq_some {s s₁ : Process} {t : Tid} {th : Thread} {a : ConnectionThreadArgs}
    {fd : Fd} {act : Action} (h : s.perform t th a fd act = some s₁) :
    ∃ fileMutex fds closes,
      s₁ = { s with fileMutex := fileMutex, fds := fds, closes := closes } ∧
        (fileMutex = .destroyed → s.fileMutex = .destroyed) := by
  unfold Process.perform at h
  split at h
  case h_1 =>
    split at h
    case h_1 => cases h; exact ⟨_, _, _, rfl, FileMutex.noConfusion⟩
    case h_2 => cases h
  case h_2 =>
    split at h
    case h_1 => cases h
    case h_2 => cases h; exact ⟨_, _, _, rfl, FileMutex.noConfusion⟩
  case h_3 =>
    obtain ⟨-, rfl⟩ := openFd_eq_some h
    exact ⟨_, _, _, rfl, id⟩
  case h_4 =>
    obtain ⟨n, -, rfl⟩ := Option.map_eq_some_iff.mp h
    exact ⟨_, _, _, rfl, id⟩
  case h_5 => cases h; exact ⟨_, _, _, rfl, id⟩
  case h_6 => cases h; exact ⟨_, _, _, rfl, id⟩

/-- What a step of a thread is. -/
theorem threadStep_eq_some {s s' : Process} {t : Tid} {o : Outcome} {fd : Fd}
    (h : s.threadStep t o fd = some s') :
    ∃ th a act c s₁, s.threads t = some th ∧ s.args th.connectionData = some a ∧
      (th.control a).step o = some (act, c) ∧ s.perform t th a fd act = some s₁ ∧
      s' = { s₁ with toRecords := s.setThread t (th.after c fd act) (a.after c) } := by
  unfold Process.threadStep at h
  obtain ⟨th, hth, h⟩ := Option.bind_eq_some_iff.mp h
  obtain ⟨a, ha, h⟩ := Option.bind_eq_some_iff.mp h
  obtain ⟨⟨act, c⟩, hstep, h⟩ := Option.bind_eq_some_iff.mp h
  obtain ⟨s₁, hperform, h⟩ := Option.bind_eq_some_iff.mp h
  obtain ⟨fileMutex, fds, closes, rfl, -⟩ := perform_eq_some hperform
  cases h
  exact ⟨th, a, act, c, _, hth, ha, hstep, hperform, rfl⟩

/-- A thread that has returned takes no step. -/
theorem not_returned_of_step {c c' : Control} {o : Outcome} {act : Action}
    (h : c.step o = some (act, c')) : ¬ c.Returned := by
  intro hret
  have hpc : c.pc = .exit [] := hret
  cases control_cases h with
  | begins hat | locks hat | opens hat | openFails hat | receives hat | seeks hat | writes hat
  | reads hat | sends hat | leaves hat =>
    rw [hat] at hpc
    cases hpc

/-! ## Runs -/

/-- Who takes the next step. -/
inductive Turn where
  | main (ans : Answer)
  | thread (t : Tid) (o : Outcome) (fd : Fd)
  -- SIGINT or SIGTERM
  | signal

def Process.step (s : Process) : Turn → Option (Unit × Process)
  | .main ans => (s.mainStep ans).map ((), ·)
  | .thread t o fd => (s.threadStep t o fd).map ((), ·)
  | .signal => some ((), { s with quit := true })

/-- What a step can be. -/
inductive TurnActs (s : Process) : Turn → Process → Prop where
  | main {ans : Answer} {s' : Process} (hact : MainActs s ans s') : TurnActs s (.main ans) s'
  | thread {t : Tid} {o : Outcome} {fd : Fd} {s' : Process}
    (hthread : s.threadStep t o fd = some s') : TurnActs s (.thread t o fd) s'
  | signal : TurnActs s .signal { s with quit := true }

theorem step_cases {s s' : Process} {turn : Turn} {u : Unit} (h : s.step turn = some (u, s')) :
    TurnActs s turn s' := by
  cases turn with
  | main ans =>
    obtain ⟨s₁, hmain, heq⟩ := Option.map_eq_some_iff.mp h
    obtain ⟨-, rfl⟩ := Prod.mk.inj heq
    exact .main (mainStep_cases hmain)
  | thread t o fd =>
    obtain ⟨s₁, hthread, heq⟩ := Option.map_eq_some_iff.mp h
    obtain ⟨-, rfl⟩ := Prod.mk.inj heq
    exact .thread hthread
  | signal =>
    cases h
    exact .signal

/-- `run_server` has returned. -/
def Process.Returned (s : Process) : Prop := s.pc = .returned

instance (s : Process) : Decidable s.Returned := inferInstanceAs (Decidable (s.pc = .returned))

end Aesd.Server
