/-
  Aesd.Server.Sockets

  Which descriptors are closed, by whom, and what they refer to when they are.

  A thread owns the socket of its connection from its creation until it is
  joined (`Owns`).  What a step does to the owners, the descriptors and the
  `close` calls is said once (`Effect`); from it follow that each thread closes
  its own socket once (`Counts`), and that as long as main closes nothing every
  close meets the file it is for (`Right`).
-/
import Aesd.Lib.Handles
import Aesd.Server.Threads

namespace Aesd.Server

open Aesd.Lib

/-! ## Owners -/

/-- Thread `t`, which is created and not joined, has number `fd` for connection `k`. -/
structure Process.Owns (s : Process) (t : Tid) (th : Thread) (k : Nat) (fd : Fd) : Prop where
  thread : s.threads t = some th
  unjoined : t ∉ s.joined
  args : ∃ a, s.args th.connectionData = some a ∧ a.client = k ∧ a.clientFd = fd

/-- The descriptor of a connection that has no thread yet. -/
def Process.inFlight (s : Process) : Option Fd :=
  match s.pc with
  | .setUp clientFd => some clientFd
  | _ => none

/-- The number of connections that have got a thread. -/
def Process.handed (s : Process) : Nat :=
  match s.pc with
  | .setUp _ => s.accepts - 1
  | _ => s.accepts

/-- How often a thread at this place has still to close its client's socket. -/
def toClose : Pc → Nat
  | .exit todo => todo.count .closeClient
  | _ => 1

/-- How often it has still to close the device. -/
def toCloseOutput : Pc → Nat
  | .begin => 0
  | .lock => 0
  | .open => 0
  | .exit todo => todo.count .closeOutput
  | _ => 1

/-- Inside the loops there is one socket and one file to close. -/
def Inside (pc : Pc) : Prop := toClose pc = 1 ∧ toCloseOutput pc = 1

theorem inside_afterPass (next : Option Int) : Inside (afterPass next) :=
  afterPass_of ⟨rfl, rfl⟩ ⟨rfl, rfl⟩ ⟨rfl, rfl⟩ next

theorem inside_onRecv (next : RecvNext) : Inside (onRecv next) := by
  cases next with
  | ret ret => exact inside_afterPass (some ret)
  | ioctl seekto size => exact ⟨rfl, rfl⟩
  | write bytes size => exact ⟨rfl, rfl⟩

theorem inside_onRead (ret : Int) : Inside (onRead ret) :=
  onRead_of (fun _ => ⟨rfl, rfl⟩) ⟨rfl, rfl⟩ ret

theorem inside_onSend (bytesRead : Nat) (res : SendResult) : Inside (onSend bytesRead res) :=
  onSend_of ⟨rfl, rfl⟩ ⟨rfl, rfl⟩ ⟨rfl, rfl⟩ bytesRead res

/-- What the action of a thread that `open` does not fail leaves to close. -/
inductive Leaves (pc pc' : Pc) : Action → Prop where
  | opens (hclose : toClose pc' = toClose pc) (hbefore : toCloseOutput pc = 0)
    (hafter : toCloseOutput pc' = 1) : Leaves pc pc' (.open true)
  | closesOutput (hclose : toClose pc' = toClose pc)
    (houtput : toCloseOutput pc = toCloseOutput pc' + 1) : Leaves pc pc' .closeOutput
  | closesClient (hclose : toClose pc = toClose pc' + 1)
    (houtput : toCloseOutput pc' = toCloseOutput pc) : Leaves pc pc' .closeClient
  | other {act : Action} (hopen : act ≠ .open true) (hout : act ≠ .closeOutput)
    (hclient : act ≠ .closeClient) (hclose : toClose pc' = toClose pc)
    (houtput : toCloseOutput pc' = toCloseOutput pc) : Leaves pc pc' act

theorem exit_pc (c : Control) (todo : List ExitOp) (op : ExitOp) :
    (c.exit todo op).pc = .exit todo := by
  cases op <;> rfl

theorem step_leaves {c c' : Control} {o : Outcome} {act : Action} (ho : o ≠ .opened false)
    (hstep : c.step o = some (act, c')) : Leaves c.pc c'.pc act := by
  cases control_cases hstep with
  | begins hpc | locks hpc =>
    rw [hpc]
    exact .other nofun nofun nofun rfl rfl
  | opens hpc =>
    rw [hpc]
    exact .opens rfl rfl rfl
  | openFails => exact absurd rfl ho
  | @receives res oob hpc =>
    obtain ⟨hclose, houtput⟩ := inside_onRecv (afterRecv oob res)
    rw [hpc]
    exact .other nofun nofun nofun hclose houtput
  | seeks hpc | writes hpc =>
    obtain ⟨hclose, houtput⟩ := inside_afterPass _
    rw [hpc]
    exact .other nofun nofun nofun hclose houtput
  | reads hpc =>
    obtain ⟨hclose, houtput⟩ := inside_onRead _
    rw [hpc]
    exact .other nofun nofun nofun hclose houtput
  | sends hpc =>
    obtain ⟨hclose, houtput⟩ := inside_onSend _ _
    rw [hpc]
    exact .other nofun nofun nofun hclose houtput
  | @leaves op todo hpc =>
    rw [hpc, exit_pc]
    cases op with
    | closeClient => exact .closesClient (List.count_cons_self ..) (by simp [toCloseOutput])
    | closeOutput => exact .closesOutput (by simp [toClose]) (List.count_cons_self ..)
    | setSuccess success =>
      exact .other nofun nofun nofun (by simp [toClose]) (by simp [toCloseOutput])
    | setComplete =>
      exact .other nofun nofun nofun (by simp [toClose]) (by simp [toCloseOutput])
    | unlock => exact .other nofun nofun nofun (by simp [toClose]) (by simp [toCloseOutput])

/-! ## What a step does -/

/-- Thread `t` has got from `th` to `th'`: what it did to the descriptors, and what it has
    left to close. -/
inductive FileActs (s s' : Process) (t : Tid) (th th' : Thread) (k : Nat) (n : Fd) : Prop where
  | opens {fd : Fd} (hfree : s.fds fd = none)
    (hfds : s'.fds = Function.update s.fds fd (some (.output t))) (hcloses : s'.closes = s.closes)
    (hfd : th'.outputFd = some fd) (hclose : toClose th'.pc = toClose th.pc)
    (hafter : toCloseOutput th'.pc = 1)
  | closesOutput {fd : Fd} (hfd : th.outputFd = some fd)
    (hfds : s'.fds = Function.update s.fds fd none)
    (hcloses : s'.closes = s.closes ++ [⟨.thread t, .output t, s.fds fd⟩])
    (hclose : toClose th'.pc = toClose th.pc)
    (houtput : toCloseOutput th.pc = toCloseOutput th'.pc + 1)
  | closesClient (hfds : s'.fds = Function.update s.fds n none)
    (hcloses : s'.closes = s.closes ++ [⟨.thread t, .client k, s.fds n⟩])
    (hfd : th'.outputFd = th.outputFd) (hclose : toClose th.pc = toClose th'.pc + 1)
    (houtput : toCloseOutput th'.pc = toCloseOutput th.pc)
  | other (hfds : s'.fds = s.fds) (hcloses : s'.closes = s.closes)
    (hfd : th'.outputFd = th.outputFd) (hclose : toClose th'.pc = toClose th.pc)
    (houtput : toCloseOutput th'.pc = toCloseOutput th.pc)

/-- What a step does to the owners, the descriptors and the closes. -/
inductive Effect (s s' : Process) : Prop where
  | quiet (howns : ∀ t th k n, s'.Owns t th k n ↔ s.Owns t th k n)
    (hflight : s'.inFlight = s.inFlight) (hhanded : s'.handed = s.handed)
    (hfds : s'.fds = s.fds) (hcloses : s'.closes = s.closes)
  | accepts {fd : Fd} (howns : ∀ t th k n, s'.Owns t th k n ↔ s.Owns t th k n)
    (hflight : s'.inFlight = some fd) (hhanded : s'.handed = s.handed) (hfree : s.fds fd = none)
    (hfds : s'.fds = Function.update s.fds fd (some (.client s.handed)))
    (hcloses : s'.closes = s.closes)
  | creates {t : Tid} {fd : Fd} {tData : Addr} (hnew : ∀ th k n, ¬ s.Owns t th k n)
    (howns : ∀ u th k n, s'.Owns u th k n ↔
      s.Owns u th k n ∨ u = t ∧ th = .start tData ∧ k = s.handed ∧ n = fd)
    (hflight : s.inFlight = some fd) (hflight' : s'.inFlight = none)
    (hhanded : s'.handed = s.handed + 1) (hfds : s'.fds = s.fds) (hcloses : s'.closes = s.closes)
  | joins {t : Tid} (hret : ∀ th k n, s.Owns t th k n → th.Returned)
    (howns : ∀ u th k n, s'.Owns u th k n ↔ s.Owns u th k n ∧ u ≠ t)
    (hflight : s'.inFlight = s.inFlight) (hhanded : s'.handed = s.handed)
    (hfds : s'.fds = s.fds) (hcloses : s'.closes = s.closes)
  | acts {t : Tid} {th th' : Thread} {k : Nat} {n : Fd} (hown : s.Owns t th k n)
    (howns : ∀ u th₁ k₁ n₁, s'.Owns u th₁ k₁ n₁ ↔
      s.Owns u th₁ k₁ n₁ ∧ u ≠ t ∨ u = t ∧ th₁ = th' ∧ k₁ = k ∧ n₁ = n)
    (hflight : s'.inFlight = s.inFlight) (hhanded : s'.handed = s.handed)
    (hfiles : FileActs s s' t th th' k n)
  | mainCloses {t : Tid} {th : Thread} {k : Nat} {n : Fd} (hown : s.Owns t th k n)
    (howns : ∀ u th₁ k₁ n₁, s'.Owns u th₁ k₁ n₁ ↔ s.Owns u th₁ k₁ n₁)
    (hflight : s'.inFlight = s.inFlight) (hhanded : s'.handed = s.handed)
    (hfds : s'.fds = Function.update s.fds n none)
    (hcloses : s'.closes = s.closes ++ [⟨.main, .client k, s.fds n⟩])

/-- The only actions that reach the descriptors. -/
theorem perform_other {s s₁ : Process} {t : Tid} {th : Thread} {a : ConnectionThreadArgs}
    {fd : Fd} {act : Action} (hopen : act ≠ .open true) (hout : act ≠ .closeOutput)
    (hclient : act ≠ .closeClient) (h : s.perform t th a fd act = some s₁) :
    s₁.fds = s.fds ∧ s₁.closes = s.closes := by
  unfold Process.perform at h
  split at h
  case h_1 =>
    split at h
    case h_1 => cases h; exact ⟨rfl, rfl⟩
    case h_2 => cases h
  case h_2 =>
    split at h
    case h_1 => cases h
    case h_2 => cases h; exact ⟨rfl, rfl⟩
  case h_3 => exact absurd rfl hopen
  case h_4 => exact absurd rfl hout
  case h_5 => exact absurd rfl hclient
  case h_6 => cases h; exact ⟨rfl, rfl⟩

/-- A thread keeps what its arguments say about its connection. -/
theorem owns_setThread {s s' : Process} {t : Tid} {th th' : Thread} {a a' : ConnectionThreadArgs}
    (hrecords : s'.toRecords = s.setThread t th' a') (hth : s.threads t = some th)
    (hnot : t ∉ s.joined) (ha : s.args th.connectionData = some a)
    (hdata : th'.connectionData = th.connectionData) (hclient : a'.client = a.client)
    (hfd : a'.clientFd = a.clientFd) (u : Tid) (th₁ : Thread) (k : Nat) (n : Fd) :
    s'.Owns u th₁ k n ↔
      s.Owns u th₁ k n ∧ u ≠ t ∨ u = t ∧ th₁ = th' ∧ k = a.client ∧ n = a.clientFd := by
  have hthreads : s'.threads = Function.update s.threads t (some th') := by rw [hrecords]; rfl
  have hargs : s'.args = Function.update s.args th.connectionData (some a') := by
    rw [hrecords, ← hdata]
    rfl
  have hjoined : s'.joined = s.joined := by rw [hrecords]; rfl
  -- the two fields are the same at every address
  have hsame : ∀ q, (∃ b, s'.args q = some b ∧ b.client = k ∧ b.clientFd = n) ↔
      ∃ b, s.args q = some b ∧ b.client = k ∧ b.clientFd = n := by
    intro q
    rw [hargs]
    by_cases hq : q = th.connectionData
    · simp [hq, ha, hclient, hfd]
    · rw [Function.update_of_ne hq]
  refine ⟨?_, ?_⟩
  · rintro ⟨hu, hun, hb⟩
    rw [hthreads] at hu
    rw [hjoined] at hun
    by_cases hut : u = t
    · refine .inr ⟨hut, ?_⟩
      rw [hut, Function.update_self, Option.some.injEq] at hu
      obtain ⟨b, hb, rfl, rfl⟩ := hb
      rw [hargs, ← hu, hdata, Function.update_self, Option.some.injEq] at hb
      rw [← hb]
      exact ⟨hu.symm, hclient, hfd⟩
    · rw [Function.update_of_ne hut] at hu
      exact .inl ⟨⟨hu, hun, (hsame _).mp hb⟩, hut⟩
  · rintro (⟨⟨hu, hun, hb⟩, hut⟩ | ⟨rfl, rfl, rfl, rfl⟩)
    · refine ⟨?_, ?_, (hsame _).mpr hb⟩
      · rw [hthreads, Function.update_of_ne hut, hu]
      · rwa [hjoined]
    · refine ⟨?_, ?_, (hsame _).mpr ⟨a, hdata ▸ ha, rfl, rfl⟩⟩
      · rw [hthreads, Function.update_self]
      · rwa [hjoined]

theorem threadStep_effect {s s' : Process} (hsound : Sound s) {t : Tid} {o : Outcome} {fd : Fd}
    (ho : o ≠ .opened false) (hstep : s.threadStep t o fd = some s') : Effect s s' := by
  obtain ⟨th, a, act, c, s₁, hth, ha, hc, hperform, hs'⟩ := threadStep_eq_some hstep
  have hleft : ¬ th.Returned := not_returned_of_step hc
  obtain ⟨pending, listed, hbooks, -⟩ := hsound.keeps
  have hnot := hbooks.notMem_joined hth hleft
  have hrecords : s'.toRecords = s.setThread t (th.after c fd act) (a.after c) := by rw [hs']
  have hfds : s'.fds = s₁.fds := by rw [hs']
  have hcloses : s'.closes = s₁.closes := by rw [hs']
  have hframe : s'.inFlight = s.inFlight ∧ s'.handed = s.handed := by
    obtain ⟨fileMutex, fds, closes, rfl, -⟩ := perform_eq_some hperform
    rw [hs']
    exact ⟨rfl, rfl⟩
  refine .acts ⟨hth, hnot, a, ha, rfl, rfl⟩
    (owns_setThread hrecords hth hnot ha rfl rfl rfl) hframe.1 hframe.2 ?_
  rw [Process.perform.eq_def] at hperform
  cases step_leaves ho hc with
  | opens hclose hbefore hafter =>
    obtain ⟨hfree, rfl⟩ := openFd_eq_some hperform
    exact .opens hfree hfds hcloses rfl hclose hafter
  | closesOutput hclose houtput =>
    obtain ⟨n, hn, rfl⟩ := Option.map_eq_some_iff.mp hperform
    exact .closesOutput hn hfds hcloses hclose houtput
  | closesClient hclose houtput =>
    obtain rfl := Option.some.inj hperform
    exact .closesClient hfds hcloses rfl hclose houtput
  | other hopen hout hclient hclose houtput =>
    rw [← Process.perform.eq_def] at hperform
    obtain ⟨hfds₁, hcloses₁⟩ := perform_other hopen hout hclient hperform
    exact .other (hfds.trans hfds₁) (hcloses.trans hcloses₁) (if_neg hopen) hclose houtput

/-- Every `malloc`, every `pthread_create` and every `open` succeeds. -/
def Turn.Succeeds : Turn → Prop
  | .main (.setUp (.created _ _ _)) => True
  | .main (.setUp _) => False
  | .thread _ (.opened false) _ => False
  | _ => True

section Main

variable {s s' : Process}

theorem owns_of_eq (hthreads : s'.threads = s.threads) (hjoined : s'.joined = s.joined)
    (hargs : s'.args = s.args) (t : Tid) (th : Thread) (k : Nat) (n : Fd) :
    s'.Owns t th k n ↔ s.Owns t th k n := by
  refine ⟨?_, ?_⟩
  · rintro ⟨hth, hnot, ha⟩
    exact ⟨hthreads ▸ hth, hjoined ▸ hnot, hargs ▸ ha⟩
  · rintro ⟨hth, hnot, ha⟩
    exact ⟨hthreads ▸ hth, hjoined ▸ hnot, hargs ▸ ha⟩

theorem handed_of_none (h : s.inFlight = none) : s.handed = s.accepts := by
  unfold Process.inFlight at h
  unfold Process.handed
  split
  case h_1 hpc =>
    rw [hpc] at h
    cases h
  case h_2 => rfl

/-- Steps that only move main. -/
theorem Effect.of_eq (howns : ∀ t th k n, s'.Owns t th k n ↔ s.Owns t th k n)
    (hflight : s.inFlight = none) (hflight' : s'.inFlight = none) (haccepts : s'.accepts = s.accepts)
    (hfds : s'.fds = s.fds) (hcloses : s'.closes = s.closes) : Effect s s' := by
  refine .quiet howns (hflight'.trans hflight.symm) ?_ hfds hcloses
  rw [handed_of_none hflight, handed_of_none hflight', haccepts]

/-- The arguments that are freed are those of a joined thread. -/
theorem owns_reap {es : List Entry} (h : Books s.toRecords es) {e : Entry} (he : e ∈ es)
    (hjoined : e.worker ∈ s.joined) (hthreads : s'.threads = s.threads)
    (hsame : s'.joined = s.joined) (hargs : s'.args = Function.update s.args e.connection none)
    (t : Tid) (th : Thread) (k : Nat) (n : Fd) : s'.Owns t th k n ↔ s.Owns t th k n := by
  have hother : s.threads t = some th → t ∉ s.joined → th.connectionData ≠ e.connection := by
    intro hth hnot heq
    obtain ⟨e', he', rfl, hconn⟩ := h.exists_entry hth hnot
    obtain rfl := List.inj_on_of_nodup_map h.connections he' he (hconn.trans heq)
    exact hnot hjoined
  refine ⟨?_, ?_⟩
  · rintro ⟨hth, hnot, a, ha, hk⟩
    rw [hthreads] at hth
    rw [hsame] at hnot
    rw [hargs, Function.update_of_ne (hother hth hnot)] at ha
    exact ⟨hth, hnot, a, ha, hk⟩
  · rintro ⟨hth, hnot, a, ha, hk⟩
    refine ⟨hthreads.symm ▸ hth, hsame.symm ▸ hnot, a, ?_, hk⟩
    rw [hargs, Function.update_of_ne (hother hth hnot)]
    exact ha

/-- A thread that has been joined owns nothing any more. -/
theorem owns_join {w : Tid} (hthreads : s'.threads = s.threads)
    (hjoined : s'.joined = s.joined ++ [w]) (hargs : s'.args = s.args) (t : Tid) (th : Thread)
    (k : Nat) (n : Fd) : s'.Owns t th k n ↔ s.Owns t th k n ∧ t ≠ w := by
  refine ⟨?_, ?_⟩
  · rintro ⟨hth, hnot, ha⟩
    rw [hjoined, List.mem_append, List.mem_singleton, not_or] at hnot
    exact ⟨⟨hthreads ▸ hth, hnot.1, hargs ▸ ha⟩, hnot.2⟩
  · rintro ⟨⟨hth, hnot, ha⟩, hne⟩
    refine ⟨hthreads ▸ hth, ?_, hargs ▸ ha⟩
    rw [hjoined, List.mem_append, List.mem_singleton, not_or]
    exact ⟨hnot, hne⟩

/-- A new thread owns the connection it was created for. -/
theorem owns_create {es : List Entry} (h : Books s.toRecords es) {t : Tid} {tData : Addr}
    {a : ConnectionThreadArgs} (hfree : s.args tData = none) (hnew : s.threads t = none)
    (hthreads : s'.threads = Function.update s.threads t (some (.start tData)))
    (hjoined : s'.joined = s.joined) (hargs : s'.args = Function.update s.args tData (some a))
    (u : Tid) (th : Thread) (k : Nat) (n : Fd) :
    s'.Owns u th k n ↔
      s.Owns u th k n ∨ u = t ∧ th = .start tData ∧ k = a.client ∧ n = a.clientFd := by
  have hne : ∀ v, (∃ th', s.threads v = some th') → v ≠ t := by
    rintro v ⟨th', hv⟩ rfl
    exact absurd (hnew.symm.trans hv) (by simp)
  have hold : s.threads u = some th → u ∉ s.joined → th.connectionData ≠ tData := by
    intro hth hnot heq
    obtain ⟨e, he, -, hconn⟩ := h.exists_entry hth hnot
    exact (h.live e he).args (hconn.trans heq ▸ hfree)
  refine ⟨?_, ?_⟩
  · rintro ⟨hth, hnot, b, hb, hk⟩
    rw [hthreads] at hth
    rw [hjoined] at hnot
    rw [hargs] at hb
    by_cases hut : u = t
    · rw [hut, Function.update_self, Option.some.injEq] at hth
      have hstart : (Thread.start tData).connectionData = tData := rfl
      rw [← hth, hstart, Function.update_self, Option.some.injEq] at hb
      subst hb
      exact .inr ⟨hut, hth.symm, hk.1.symm, hk.2.symm⟩
    · rw [Function.update_of_ne hut] at hth
      rw [Function.update_of_ne (hold hth hnot)] at hb
      exact .inl ⟨hth, hnot, b, hb, hk⟩
  · rintro (⟨hth, hnot, b, hb, hk⟩ | ⟨rfl, rfl, rfl, rfl⟩)
    · refine ⟨?_, hjoined.symm ▸ hnot, b, ?_, hk⟩
      · rw [hthreads, Function.update_of_ne (hne u ⟨th, hth⟩), hth]
      · rw [hargs, Function.update_of_ne (hold hth hnot), hb]
    · refine ⟨?_, ?_, a, ?_, rfl, rfl⟩
      · rw [hthreads, Function.update_self]
      · rw [hjoined]
        intro hu
        obtain ⟨th', hth', -⟩ := h.returned u hu
        exact absurd (hnew.symm.trans hth') (by simp)
      · rw [hargs]
        exact Function.update_self ..

/-- A connection gets its thread. -/
theorem setUp_effect {es : List Entry} (h : Books s.toRecords es) {clientFd : Fd} {res : SetUp}
    (hpc : s.pc = .setUp clientFd) (hpos : 0 < s.accepts)
    (hok : (Turn.main (.setUp res)).Succeeds) (hset : s.setUp clientFd res = some s') :
    Effect s s' := by
  cases res with
  | noArgs => exact hok.elim
  | noThread tData => exact hok.elim
  | notCreated tData thread => exact hok.elim
  | created tData thread t =>
    obtain ⟨m, hm, hset⟩ := Option.bind_eq_some_iff.mp hset
    obtain ⟨m₁, hm₁, hset⟩ := Option.bind_eq_some_iff.mp hset
    obtain ⟨m₂, hm₂, hset⟩ := Option.bind_eq_some_iff.mp hset
    obtain ⟨hfree, rfl⟩ := newArgs_eq_some hm
    obtain ⟨-, rfl⟩ := newHandle_eq_some hm₁
    obtain ⟨hnew, rfl⟩ := create_eq_some hm₂
    have hs' := (Option.some.inj hset).symm
    have hhanded : s.handed = s.accepts - 1 := by rw [Process.handed, hpc]
    have hflight : s.inFlight = some clientFd := by rw [Process.inFlight, hpc]
    have hthreads : s'.threads = Function.update s.threads t (some (.start tData)) := by rw [hs']
    have hargs : s'.args = Function.update s.args tData
        (some (.new (s.accepts - 1) clientFd)) := by rw [hs']
    have howns := owns_create h hfree hnew hthreads (by rw [hs']) hargs
    have hafter : s'.handed = s.handed + 1 := by
      rw [hs', hhanded]
      show s.accepts = s.accepts - 1 + 1
      omega
    refine .creates ?_ (hhanded.symm ▸ howns) hflight (by rw [hs']; rfl) hafter (by rw [hs'])
      (by rw [hs'])
    rintro th k n ⟨hth, -, -⟩
    exact absurd (hnew.symm.trans hth) (by simp)

/-- The thread of a listed node owns what its arguments say. -/
theorem owns_listed {pending : List Entry} {done rest : List (Addr × Entry)} {datap : Addr}
    {e : Entry} (h : Books s.toRecords (pending ++ (done ++ (datap, e) :: rest).map Prod.snd))
    (hholds : s.slist.Holds ((done ++ (datap, e) :: rest).map nodeOf))
    (hnot : e.worker ∉ s.joined) {a : ConnectionThreadArgs} (ha : s.connection datap = some a) :
    ∃ th, s.Owns e.worker th a.client a.clientFd := by
  obtain ⟨-, -, th, hth, hconn⟩ := h.live e (by simp)
  obtain ⟨c, hcell, ha⟩ := Option.bind_eq_some_iff.mp ha
  obtain rfl := Option.some.inj (hcell.symm.trans (cell_of_listed hholds))
  exact ⟨th, hth, hnot, a, hconn.symm ▸ ha, rfl, rfl⟩

/-- Steps at which a thread is joined. -/
theorem join_effect {pending : List Entry} {done rest : List (Addr × Entry)} {datap : Addr}
    {e : Entry} (h : Books s.toRecords (pending ++ (done ++ (datap, e) :: rest).map Prod.snd))
    (hholds : s.slist.Holds ((done ++ (datap, e) :: rest).map nodeOf))
    (hjoin : s.join datap = some s'.toRecords) (hflight : s.inFlight = none)
    (hflight' : s'.inFlight = none) (haccepts : s'.accepts = s.accepts) (hfds : s'.fds = s.fds)
    (hcloses : s'.closes = s.closes) : Effect s s' := by
  obtain ⟨th, hth, hret, heq⟩ := join_eq_some hholds (h.live e (by simp)) hjoin
  have howns : ∀ t th k n, s'.Owns t th k n ↔ s.Owns t th k n ∧ t ≠ e.worker :=
    owns_join (by rw [heq]) (by rw [heq]) (by rw [heq])
  refine .joins ?_ howns (hflight'.trans hflight.symm) ?_ hfds hcloses
  · rintro th' k n ⟨hth', -, -⟩
    exact Option.some.inj (hth.symm.trans hth') ▸ hret
  · rw [handed_of_none hflight, handed_of_none hflight', haccepts]

/-- Steps at which the records of a joined thread are given back. -/
theorem reap_effect {pending : List Entry} {done rest : List (Addr × Entry)} {datap : Addr}
    {e : Entry} (h : Books s.toRecords (pending ++ (done ++ (datap, e) :: rest).map Prod.snd))
    (hholds : s.slist.Holds ((done ++ (datap, e) :: rest).map nodeOf))
    (hjoined : e.worker ∈ s.joined)
    {unlink : SList Addr SlistData → Option (SList Addr SlistData)}
    (hreap : s.reap datap unlink = some s'.toRecords) (hflight : s.inFlight = none)
    (hflight' : s'.inFlight = none) (haccepts : s'.accepts = s.accepts) (hfds : s'.fds = s.fds)
    (hcloses : s'.closes = s.closes) : Effect s s' := by
  obtain ⟨l, -, heq⟩ := reap_eq_some hholds hreap
  have he : e ∈ pending ++ (done ++ (datap, e) :: rest).map Prod.snd := by simp
  have howns : ∀ t th k n, s'.Owns t th k n ↔ s.Owns t th k n :=
    owns_reap h he hjoined (by rw [heq]) (by rw [heq]) (by rw [heq])
  exact .of_eq howns hflight hflight' haccepts hfds hcloses

theorem mainStep_effect (hsound : Sound s) {ans : Answer} (hok : (Turn.main ans).Succeeds)
    (hact : MainActs s ans s') : Effect s s' := by
  obtain ⟨⟨pending, listed, hbooks, hholds, hplace⟩, -⟩ := hsound
  unfold Place at hplace
  have hidle : (∀ clientFd, s.pc ≠ .setUp clientFd) → s.inFlight = none := by
    intro h
    unfold Process.inFlight
    split
    case h_1 clientFd hpc => exact absurd hpc (h clientFd)
    case h_2 => rfl
  cases hact with
  | quits hpc hquit =>
    exact .of_eq (owns_of_eq rfl rfl rfl) (hidle (by simp [hpc])) rfl rfl rfl rfl
  | passStarts hpc hquit =>
    exact .of_eq (owns_of_eq rfl rfl rfl) (hidle (by simp [hpc])) rfl rfl rfl rfl
  | passEnds hpc =>
    exact .of_eq (owns_of_eq rfl rfl rfl) (hidle (by simp [hpc])) rfl rfl rfl rfl
  | sees hpc hcell hargs hcomplete =>
    exact .of_eq (owns_of_eq rfl rfl rfl) (hidle (by simp [hpc])) rfl rfl rfl rfl
  | keeps hpc hcell hargs hcomplete =>
    exact .of_eq (owns_of_eq rfl rfl rfl) (hidle (by simp [hpc])) rfl rfl rfl rfl
  | joins hpc hjoin =>
    rw [hpc] at hplace
    obtain ⟨rfl, hunjoined, done, e, rest, rfl, hkept, htmp⟩ := hplace
    exact join_effect hbooks hholds hjoin (hidle (by simp [hpc])) rfl rfl rfl rfl
  | reaps hpc hreap =>
    rw [hpc] at hplace
    obtain ⟨rfl, done, e, rest, rfl, hkept, htmp, hjoined, hothers⟩ := hplace
    exact reap_effect hbooks hholds hjoined hreap (hidle (by simp [hpc])) rfl rfl rfl rfl
  | acceptFails hpc =>
    exact .of_eq (owns_of_eq rfl rfl rfl) (hidle (by simp [hpc])) rfl rfl rfl rfl
  | accepts hpc hfree =>
    have hhanded := handed_of_none (hidle (by simp [hpc]))
    refine .accepts (owns_of_eq rfl rfl rfl) rfl ?_ hfree ?_ rfl
    · rw [hhanded]
      exact Nat.add_sub_cancel ..
    · rw [hhanded]
  | setsUp hpc hset =>
    rw [hpc] at hplace
    exact setUp_effect hbooks hpc hplace.2.2 hok hset
  | inserts hpc hinsert =>
    exact .of_eq (owns_of_eq rfl rfl rfl) (hidle (by simp [hpc])) rfl rfl rfl rfl
  | empties hpc hempty =>
    exact .of_eq (owns_of_eq rfl rfl rfl) (hidle (by simp [hpc])) rfl rfl rfl rfl
  | @closes datap a hpc hfirst hargs =>
    rw [hpc] at hplace
    obtain ⟨rfl, hunjoined⟩ := hplace
    obtain ⟨e, rest, rfl⟩ := eq_cons_of_link (hfirst.symm.trans hholds.first_eq)
    have hsplit : Books s.toRecords ([] ++ ([] ++ (datap, e) :: rest).map Prod.snd) := hbooks
    obtain ⟨th, hown⟩ := owns_listed hsplit hholds (hunjoined e (by simp)) hargs
    have hflight := hidle (by simp [hpc])
    refine .mainCloses hown (owns_of_eq rfl rfl rfl) ?_ ?_ rfl rfl
    · rw [hflight]; rfl
    · rw [handed_of_none hflight]; rfl
  | @shutdownJoins datap m hpc hjoin =>
    rw [hpc] at hplace
    obtain ⟨rfl, hunjoined, e, rest, rfl⟩ := hplace
    have hsplit : Books s.toRecords ([] ++ ([] ++ (datap, e) :: rest).map Prod.snd) := hbooks
    exact join_effect hsplit hholds hjoin (hidle (by simp [hpc])) rfl rfl rfl rfl
  | @shutdownReaps datap m hpc hreap =>
    rw [hpc] at hplace
    obtain ⟨rfl, e, rest, rfl, hjoined, hothers⟩ := hplace
    have hsplit : Books s.toRecords ([] ++ ([] ++ (datap, e) :: rest).map Prod.snd) := hbooks
    exact reap_effect hsplit hholds hjoined hreap (hidle (by simp [hpc])) rfl rfl rfl rfl
  | destroys hpc =>
    exact .of_eq (owns_of_eq rfl rfl rfl) (hidle (by simp [hpc])) rfl rfl rfl rfl

theorem step_effect (hsound : Sound s) {turn : Turn} {u : Unit} (hok : turn.Succeeds)
    (hstep : s.step turn = some (u, s')) : Effect s s' := by
  cases step_cases hstep with
  | main hact => exact mainStep_effect hsound hok hact
  | thread hthread =>
    refine threadStep_effect hsound ?_ hthread
    rintro rfl
    exact hok.elim
  | signal => exact .quiet (owns_of_eq rfl rfl rfl) rfl rfl rfl rfl

end Main

/-! ## Each thread closes its own socket once -/

/-- How often threads have closed the socket of connection `k`. -/
def Process.threadCloses (s : Process) (k : Nat) : Nat :=
  s.closes.countP fun c => decide (c.party ≠ .main ∧ c.meant = .client k)

/-- How the closes are shared out among the connections. -/
structure Counts (s : Process) : Prop where
  once : ∀ t th k n, s.Owns t th k n → s.threadCloses k + toClose th.pc = 1
  output_le : ∀ t th k n, s.Owns t th k n → toCloseOutput th.pc ≤ 1
  owner_unique : ∀ t u th th' k n n', s.Owns t th k n → s.Owns u th' k n' → t = u
  lt_handed : ∀ t th k n, s.Owns t th k n → k < s.handed
  closed : ∀ k < s.handed, (∃ t th n, s.Owns t th k n) ∨ s.threadCloses k = 1
  unborn : ∀ k, s.handed ≤ k → s.threadCloses k = 0
  main_meant : ∀ c ∈ s.closes, c.party = .main → ∃ k < s.handed, c.meant = .client k

theorem counts_start (taken : Fd → Bool) : Counts (.start taken) where
  once t th k n h := absurd h.thread (by simp [Process.start, Records.start])
  output_le t th k n h := absurd h.thread (by simp [Process.start, Records.start])
  owner_unique t u th th' k n n' h := absurd h.thread (by simp [Process.start, Records.start])
  lt_handed t th k n h := absurd h.thread (by simp [Process.start, Records.start])
  closed k hk := absurd hk (Nat.not_lt_zero k)
  unborn k _ := rfl
  main_meant c hc := absurd hc (by simp [Process.start])

section Counting

variable {s s' : Process}

theorem threadCloses_of_eq (h : s'.closes = s.closes) (k : Nat) :
    s'.threadCloses k = s.threadCloses k := by
  rw [Process.threadCloses, h, Process.threadCloses]

/-- One more close, in any count. -/
theorem countP_closes {p : Close → Bool} {c : Close} (h : s'.closes = s.closes ++ [c]) :
    s'.closes.countP p = s.closes.countP p + if p c then 1 else 0 := by
  rw [h, List.countP_append, List.countP_singleton]

theorem threadCloses_append {c : Close} (h : s'.closes = s.closes ++ [c]) (k : Nat) :
    s'.threadCloses k =
      s.threadCloses k + if c.party ≠ .main ∧ c.meant = .client k then 1 else 0 := by
  rw [Process.threadCloses, countP_closes h, Process.threadCloses]
  simp

/-- A thread has one connection. -/
theorem owns_client {t : Tid} {th th' : Thread} {k k' : Nat} {n n' : Fd} (h : s.Owns t th k n)
    (h' : s.Owns t th' k' n') : k = k' := by
  obtain ⟨hth, -, a, ha, rfl, -⟩ := h
  obtain ⟨hth', -, a', ha', rfl, -⟩ := h'
  obtain rfl := Option.some.inj (hth.symm.trans hth')
  obtain rfl := Option.some.inj (ha.symm.trans ha')
  rfl

/-- Nothing that the counts speak of has changed. -/
theorem Counts.congr (h : Counts s) (howns : ∀ t th k n, s'.Owns t th k n ↔ s.Owns t th k n)
    (hhanded : s'.handed = s.handed) (hcounts : ∀ k, s'.threadCloses k = s.threadCloses k)
    (hmain : ∀ c ∈ s'.closes, c.party = .main → ∃ k < s.handed, c.meant = .client k) :
    Counts s' where
  once t th k n ho := by rw [hcounts, h.once t th k n ((howns ..).mp ho)]
  output_le t th k n ho := h.output_le t th k n ((howns ..).mp ho)
  owner_unique t u th th' k n n' ht hu :=
    h.owner_unique t u th th' k n n' ((howns ..).mp ht) ((howns ..).mp hu)
  lt_handed t th k n ho := hhanded ▸ h.lt_handed t th k n ((howns ..).mp ho)
  closed k hk := by
    rw [hhanded] at hk
    rw [hcounts]
    apply (h.closed k hk).imp_left
    rintro ⟨t, th, n, ho⟩
    exact ⟨t, th, n, (howns ..).mpr ho⟩
  unborn k hk := by rw [hcounts, h.unborn k (hhanded ▸ hk)]
  main_meant := hhanded.symm ▸ hmain

/-- A connection gets its thread. -/
theorem Counts.create (h : Counts s) {t : Tid} {fd : Fd} {tData : Addr}
    (hnew : ∀ th k n, ¬ s.Owns t th k n)
    (howns : ∀ u th k n, s'.Owns u th k n ↔
      s.Owns u th k n ∨ u = t ∧ th = .start tData ∧ k = s.handed ∧ n = fd)
    (hhanded : s'.handed = s.handed + 1) (hcloses : s'.closes = s.closes) : Counts s' where
  once u th k n ho := by
    rw [threadCloses_of_eq hcloses]
    rcases (howns ..).mp ho with ho | ⟨rfl, rfl, rfl, rfl⟩
    · exact h.once u th k n ho
    · rw [h.unborn _ (Nat.le_refl _)]
      rfl
  output_le u th k n ho := by
    rcases (howns ..).mp ho with ho | ⟨rfl, rfl, rfl, rfl⟩
    · exact h.output_le u th k n ho
    · exact Nat.zero_le _
  owner_unique u v th th' k n n' hu hv := by
    rcases (howns ..).mp hu with hu | ⟨rfl, -, hk, -⟩
    · rcases (howns ..).mp hv with hv | ⟨rfl, -, hk, -⟩
      · exact h.owner_unique u v th th' k n n' hu hv
      · exact absurd (h.lt_handed u th k n hu) (by omega)
    · rcases (howns ..).mp hv with hv | ⟨rfl, -⟩
      · exact absurd (h.lt_handed v th' k n' hv) (by omega)
      · rfl
  lt_handed u th k n ho := by
    rcases (howns ..).mp ho with ho | ⟨-, -, rfl, -⟩
    · have hk := h.lt_handed u th k n ho
      omega
    · omega
  closed k hk := by
    rw [threadCloses_of_eq hcloses]
    rcases Nat.lt_or_ge k s.handed with hk' | hk'
    · apply (h.closed k hk').imp_left
      rintro ⟨u, th, n, ho⟩
      exact ⟨u, th, n, (howns ..).mpr (.inl ho)⟩
    · have hlast : k = s.handed := by omega
      exact .inl ⟨t, .start tData, fd, (howns ..).mpr (.inr ⟨rfl, rfl, hlast, rfl⟩)⟩
  unborn k hk := by
    rw [threadCloses_of_eq hcloses]
    exact h.unborn k (by omega)
  main_meant c hc hparty := by
    obtain ⟨k, hk, hmeant⟩ := h.main_meant c (hcloses ▸ hc) hparty
    exact ⟨k, by omega, hmeant⟩

/-- A joined thread has closed its socket. -/
theorem Counts.join (h : Counts s) {t : Tid} (hret : ∀ th k n, s.Owns t th k n → th.Returned)
    (howns : ∀ u th k n, s'.Owns u th k n ↔ s.Owns u th k n ∧ u ≠ t)
    (hhanded : s'.handed = s.handed) (hcloses : s'.closes = s.closes) : Counts s' where
  once u th k n ho := by
    rw [threadCloses_of_eq hcloses]
    exact h.once u th k n ((howns ..).mp ho).1
  output_le u th k n ho := h.output_le u th k n ((howns ..).mp ho).1
  owner_unique u v th th' k n n' hu hv :=
    h.owner_unique u v th th' k n n' ((howns ..).mp hu).1 ((howns ..).mp hv).1
  lt_handed u th k n ho := hhanded ▸ h.lt_handed u th k n ((howns ..).mp ho).1
  closed k hk := by
    rw [hhanded] at hk
    rw [threadCloses_of_eq hcloses]
    rcases h.closed k hk with ⟨u, th, n, ho⟩ | hclosed
    · by_cases hut : u = t
      · -- nothing is left to close
        have honce := h.once u th k n ho
        rw [show th.pc = .exit [] from hret th k n (hut ▸ ho)] at honce
        exact .inr honce
      · exact .inl ⟨u, th, n, (howns ..).mpr ⟨ho, hut⟩⟩
    · exact .inr hclosed
  unborn k hk := by rw [threadCloses_of_eq hcloses, h.unborn k (hhanded ▸ hk)]
  main_meant := by rw [hhanded, hcloses]; exact h.main_meant

/-- What a thread does to the counts: its own closes add up with what it has left to close. -/
theorem FileActs.threadCloses {t : Tid} {th th' : Thread} {k : Nat} {n : Fd}
    (h : FileActs s s' t th th' k n) :
    s'.threadCloses k + toClose th'.pc = s.threadCloses k + toClose th.pc ∧
      ∀ k' ≠ k, s'.threadCloses k' = s.threadCloses k' := by
  cases h with
  | opens hfree hfds hcloses hfd hclose hafter =>
    exact ⟨by rw [threadCloses_of_eq hcloses, hclose], fun k' _ => threadCloses_of_eq hcloses k'⟩
  | closesOutput hfd hfds hcloses hclose houtput =>
    have hsame : ∀ k', s'.threadCloses k' = s.threadCloses k' := by
      intro k'
      rw [threadCloses_append hcloses, if_neg (by simp), Nat.add_zero]
    exact ⟨by rw [hsame, hclose], fun k' _ => hsame k'⟩
  | closesClient hfds hcloses hfd hclose houtput =>
    refine ⟨?_, fun k' hne => ?_⟩
    · rw [threadCloses_append hcloses, if_pos (by simp), hclose]
      omega
    · rw [threadCloses_append hcloses, if_neg (by simpa using Ne.symm hne), Nat.add_zero]
  | other hfds hcloses hfd hclose houtput =>
    exact ⟨by rw [threadCloses_of_eq hcloses, hclose], fun k' _ => threadCloses_of_eq hcloses k'⟩

theorem FileActs.output_le {t : Tid} {th th' : Thread} {k : Nat} {n : Fd}
    (h : FileActs s s' t th th' k n) (hle : toCloseOutput th.pc ≤ 1) :
    toCloseOutput th'.pc ≤ 1 := by
  cases h with
  | opens hfree hfds hcloses hfd hclose hafter => omega
  | closesOutput hfd hfds hcloses hclose houtput => omega
  | closesClient hfds hcloses hfd hclose houtput => omega
  | other hfds hcloses hfd hclose houtput => omega

/-- The closes of a thread are not main's. -/
theorem FileActs.mem_closes {t : Tid} {th th' : Thread} {k : Nat} {n : Fd}
    (h : FileActs s s' t th th' k n) {c : Close} (hc : c ∈ s'.closes) (hparty : c.party = .main) :
    c ∈ s.closes := by
  have happend : ∀ d : Close, d.party = .thread t → s'.closes = s.closes ++ [d] → c ∈ s.closes := by
    intro d hd heq
    rw [heq, List.mem_append, List.mem_singleton] at hc
    rcases hc with hc | rfl
    · exact hc
    · exact absurd (hparty.symm.trans hd) (by simp)
  cases h with
  | opens hfree hfds hcloses hfd hclose hafter => exact hcloses ▸ hc
  | closesOutput hfd hfds hcloses hclose houtput => exact happend _ rfl hcloses
  | closesClient hfds hcloses hfd hclose houtput => exact happend _ rfl hcloses
  | other hfds hcloses hfd hclose houtput => exact hcloses ▸ hc

/-- A step of a thread. -/
theorem Counts.act (h : Counts s) {t : Tid} {th th' : Thread} {k : Nat} {n : Fd}
    (hown : s.Owns t th k n)
    (howns : ∀ u th₁ k₁ n₁, s'.Owns u th₁ k₁ n₁ ↔
      s.Owns u th₁ k₁ n₁ ∧ u ≠ t ∨ u = t ∧ th₁ = th' ∧ k₁ = k ∧ n₁ = n)
    (hhanded : s'.handed = s.handed) (hfiles : FileActs s s' t th th' k n) : Counts s' := by
  obtain ⟨hcount, hothers⟩ := hfiles.threadCloses
  have hnew : s'.Owns t th' k n := (howns ..).mpr (.inr ⟨rfl, rfl, rfl, rfl⟩)
  have hne : ∀ u th₁ k₁ n₁, s.Owns u th₁ k₁ n₁ → u ≠ t → k₁ ≠ k := by
    rintro u th₁ k₁ n₁ ho hut rfl
    exact hut (h.owner_unique u t th₁ th k₁ n₁ n ho hown)
  exact {
    once := by
      intro u th₁ k₁ n₁ ho
      rcases (howns ..).mp ho with ⟨ho, hut⟩ | ⟨rfl, rfl, rfl, rfl⟩
      · rw [hothers k₁ (hne u th₁ k₁ n₁ ho hut)]
        exact h.once u th₁ k₁ n₁ ho
      · rw [hcount]
        exact h.once _ th _ _ hown
    output_le := by
      intro u th₁ k₁ n₁ ho
      rcases (howns ..).mp ho with ⟨ho, -⟩ | ⟨rfl, rfl, rfl, rfl⟩
      · exact h.output_le u th₁ k₁ n₁ ho
      · exact hfiles.output_le (h.output_le _ th _ _ hown)
    owner_unique := by
      intro u v th₁ th₂ k₁ n₁ n₂ hu hv
      rcases (howns ..).mp hu with ⟨hu, hut⟩ | ⟨rfl, rfl, rfl, rfl⟩
      · rcases (howns ..).mp hv with ⟨hv, -⟩ | ⟨rfl, rfl, rfl, rfl⟩
        · exact h.owner_unique u v th₁ th₂ k₁ n₁ n₂ hu hv
        · exact absurd rfl (hne u th₁ _ n₁ hu hut)
      · rcases (howns ..).mp hv with ⟨hv, hvt⟩ | ⟨rfl, -⟩
        · exact absurd rfl (hne v th₂ _ n₂ hv hvt)
        · rfl
    lt_handed := by
      intro u th₁ k₁ n₁ ho
      rw [hhanded]
      rcases (howns ..).mp ho with ⟨ho, -⟩ | ⟨rfl, rfl, rfl, rfl⟩
      · exact h.lt_handed u th₁ k₁ n₁ ho
      · exact h.lt_handed _ th _ _ hown
    closed := by
      intro k' hk'
      rw [hhanded] at hk'
      by_cases hkk : k' = k
      · exact .inl ⟨t, th', n, hkk.symm ▸ hnew⟩
      · rw [hothers k' hkk]
        apply (h.closed k' hk').imp_left
        rintro ⟨u, th₁, n₁, ho⟩
        refine ⟨u, th₁, n₁, (howns ..).mpr (.inl ⟨ho, ?_⟩)⟩
        rintro rfl
        exact hkk (owns_client ho hown)
    unborn := by
      intro k' hk'
      rw [hhanded] at hk'
      have hk := h.lt_handed t th k n hown
      rw [hothers k' (by omega)]
      exact h.unborn k' hk'
    main_meant := by
      intro c hc hparty
      rw [hhanded]
      exact h.main_meant c (hfiles.mem_closes hc hparty) hparty }

theorem Counts.step (h : Counts s) (heffect : Effect s s') : Counts s' := by
  cases heffect with
  | quiet howns hflight hhanded hfds hcloses =>
    exact h.congr howns hhanded (threadCloses_of_eq hcloses) (hcloses.symm ▸ h.main_meant)
  | accepts howns hflight hhanded hfree hfds hcloses =>
    exact h.congr howns hhanded (threadCloses_of_eq hcloses) (hcloses.symm ▸ h.main_meant)
  | creates hnew howns hflight hflight' hhanded hfds hcloses =>
    exact h.create hnew howns hhanded hcloses
  | joins hret howns hflight hhanded hfds hcloses => exact h.join hret howns hhanded hcloses
  | acts hown howns hflight hhanded hfiles => exact h.act hown howns hhanded hfiles
  | @mainCloses t th k n hown howns hflight hhanded hfds hcloses =>
    refine h.congr howns hhanded (fun k' => ?_) (fun c hc hparty => ?_)
    · rw [threadCloses_append hcloses, if_neg (by simp), Nat.add_zero]
    · rw [hcloses, List.mem_append, List.mem_singleton] at hc
      rcases hc with hc | rfl
      · exact h.main_meant c hc hparty
      · exact ⟨k, h.lt_handed t th k n hown, rfl⟩

end Counting

/-! ## What the descriptors refer to -/

/-- Who takes which number for what: threads their sockets and the device, until they have
    closed them, and main the socket of a connection that has no thread yet. -/
inductive Process.Claims (s : Process) : Description → Fd → Prop where
  | client {t : Tid} {th : Thread} {k : Nat} {n : Fd} (hown : s.Owns t th k n)
    (hopen : 0 < toClose th.pc) : s.Claims (.client k) n
  | inFlight {n : Fd} (h : s.inFlight = some n) : s.Claims (.client s.handed) n
  | output {t : Tid} {th : Thread} {k : Nat} {n fd : Fd} (hown : s.Owns t th k n)
    (hopen : 0 < toCloseOutput th.pc) (hfd : th.outputFd = some fd) : s.Claims (.output t) fd

/-- Every number refers to what it is taken for, and every close met the file it was for. -/
structure RightSoFar (s : Process) : Prop where
  right : Handles.Right s.fds s.Claims
  closes : ∀ c ∈ s.closes, c.found = some c.meant

theorem rightSoFar_start (taken : Fd → Bool) : RightSoFar (.start taken) where
  right := by
    rintro d n (⟨hown, -⟩ | h | ⟨hown, -⟩)
    · exact absurd hown.thread (by simp [Process.start, Records.start])
    · exact absurd h (by simp [Process.start, Process.inFlight])
    · exact absurd hown.thread (by simp [Process.start, Records.start])
  closes c hc := absurd hc (by simp [Process.start])

section Claims

variable {s s' : Process}

/-- Nothing new is claimed when the owners stay, and neither is anything in flight. -/
theorem claims_of_owns (howns : ∀ t th k n, s'.Owns t th k n → s.Owns t th k n)
    (hflight : s'.inFlight = s.inFlight) (hhanded : s'.handed = s.handed) {d : Description}
    {n : Fd} (h : s'.Claims d n) : s.Claims d n := by
  cases h with
  | client hown hopen => exact .client (howns _ _ _ _ hown) hopen
  | inFlight hin =>
    rw [hhanded]
    exact .inFlight (hflight ▸ hin)
  | output hown hopen hfd => exact .output (howns _ _ _ _ hown) hopen hfd

/-- A close that met its file. -/
theorem RightSoFar.append (h : RightSoFar s) {c : Close} (hc : c.found = some c.meant)
    (hcloses : s'.closes = s.closes ++ [c]) : ∀ c ∈ s'.closes, c.found = some c.meant := by
  intro c' hc'
  rw [hcloses, List.mem_append, List.mem_singleton] at hc'
  rcases hc' with hc' | rfl
  · exact h.closes c' hc'
  · exact hc

/-- The claims after a step of the thread `t`: those of the others, and the two that
    the thread itself may have. -/
theorem claims_act (hcounts : Counts s) {t : Tid} {th th' : Thread} {k : Nat} {n : Fd}
    (hown : s.Owns t th k n)
    (howns : ∀ u th₁ k₁ n₁, s'.Owns u th₁ k₁ n₁ ↔
      s.Owns u th₁ k₁ n₁ ∧ u ≠ t ∨ u = t ∧ th₁ = th' ∧ k₁ = k ∧ n₁ = n)
    (hflight : s'.inFlight = s.inFlight) (hhanded : s'.handed = s.handed) {d : Description} {m : Fd}
    (hd : s'.Claims d m) :
    (s.Claims d m ∧ d ≠ .client k ∧ d ≠ .output t) ∨
      (d = .client k ∧ m = n ∧ 0 < toClose th'.pc) ∨
      (d = .output t ∧ th'.outputFd = some m ∧ 0 < toCloseOutput th'.pc) := by
  cases hd with
  | @client u th₁ k₁ m hu hopen =>
    rcases (howns ..).mp hu with ⟨hu, hut⟩ | ⟨rfl, rfl, rfl, rfl⟩
    · refine .inl ⟨.client hu hopen, ?_, nofun⟩
      intro heq
      obtain rfl := Description.client.inj heq
      exact hut (hcounts.owner_unique u t th₁ th k₁ m n hu hown)
    · exact .inr (.inl ⟨rfl, rfl, hopen⟩)
  | inFlight hin =>
    have hk := hcounts.lt_handed t th k n hown
    rw [hhanded]
    refine .inl ⟨.inFlight (hflight ▸ hin), ?_, nofun⟩
    intro heq
    have hk' := Description.client.inj heq
    omega
  | @output u th₁ k₁ n₁ m hu hopen hfd =>
    rcases (howns ..).mp hu with ⟨hu, hut⟩ | ⟨rfl, rfl, rfl, rfl⟩
    · exact .inl ⟨.output hu hopen hfd, nofun, fun heq => hut (Description.output.inj heq)⟩
    · exact .inr (.inr ⟨rfl, hfd, hopen⟩)

/-- A step of a thread. -/
theorem RightSoFar.act (h : RightSoFar s) (hcounts : Counts s) {t : Tid} {th th' : Thread}
    {k : Nat} {n : Fd} (hown : s.Owns t th k n)
    (howns : ∀ u th₁ k₁ n₁, s'.Owns u th₁ k₁ n₁ ↔
      s.Owns u th₁ k₁ n₁ ∧ u ≠ t ∨ u = t ∧ th₁ = th' ∧ k₁ = k ∧ n₁ = n)
    (hflight : s'.inFlight = s.inFlight) (hhanded : s'.handed = s.handed)
    (hfiles : FileActs s s' t th th' k n) : RightSoFar s' := by
  have hclaims := @claims_act s s' hcounts t th th' k n hown howns hflight hhanded
  cases hfiles with
  | @opens fd hfree hfds hcloses hfd hclose hafter =>
    refine ⟨?_, hcloses.symm ▸ h.closes⟩
    rw [hfds]
    apply h.right.open hfree
    intro d m hd
    rcases hclaims hd with ⟨hd, -⟩ | ⟨rfl, rfl, hopen⟩ | ⟨rfl, hm, -⟩
    · exact .inl hd
    · exact .inl (.client hown (hclose ▸ hopen))
    · exact .inr ⟨rfl, Option.some.inj (hm.symm.trans hfd)⟩
  | @closesOutput fd hfd hfds hcloses hclose houtput =>
    have hd : s.Claims (.output t) fd := .output hown (by omega) hfd
    refine ⟨?_, h.append (h.right _ _ hd) hcloses⟩
    rw [hfds]
    apply h.right.close hd
    intro d m hd'
    rcases hclaims hd' with ⟨hd', -, hne⟩ | ⟨rfl, rfl, hopen⟩ | ⟨-, -, hopen⟩
    · exact ⟨hd', hne⟩
    · exact ⟨.client hown (hclose ▸ hopen), nofun⟩
    · -- it was open once
      have hle := hcounts.output_le t th k n hown
      omega
  | closesClient hfds hcloses hfd hclose houtput =>
    have hd : s.Claims (.client k) n := .client hown (by omega)
    refine ⟨?_, h.append (h.right _ _ hd) hcloses⟩
    rw [hfds]
    apply h.right.close hd
    intro d m hd'
    rcases hclaims hd' with ⟨hd', hne, -⟩ | ⟨-, -, hopen⟩ | ⟨rfl, hm, hopen⟩
    · exact ⟨hd', hne⟩
    · -- the thread closes its socket once
      have honce := hcounts.once t th k n hown
      omega
    · exact ⟨.output hown (houtput ▸ hopen) (hfd ▸ hm), nofun⟩
  | other hfds hcloses hfd hclose houtput =>
    refine ⟨?_, hcloses.symm ▸ h.closes⟩
    rw [hfds]
    apply h.right.mono
    intro d m hd
    rcases hclaims hd with ⟨hd, -⟩ | ⟨rfl, rfl, hopen⟩ | ⟨rfl, hm, hopen⟩
    · exact hd
    · exact .client hown (hclose ▸ hopen)
    · exact .output hown (houtput ▸ hopen) (hfd ▸ hm)

theorem RightSoFar.step (h : RightSoFar s) (hcounts : Counts s) (heffect : Effect s s')
    (hmain : ∀ c ∈ s'.closes, c.party ≠ .main) : RightSoFar s' := by
  cases heffect with
  | quiet howns hflight hhanded hfds hcloses =>
    refine ⟨?_, hcloses.symm ▸ h.closes⟩
    rw [hfds]
    exact h.right.mono fun d n =>
      claims_of_owns (fun t th k n => (howns t th k n).mp) hflight hhanded
  | @accepts fd howns hflight hhanded hfree hfds hcloses =>
    refine ⟨?_, hcloses.symm ▸ h.closes⟩
    rw [hfds]
    apply h.right.open hfree
    intro d n hd
    cases hd with
    | client hown hopen => exact .inl (.client ((howns ..).mp hown) hopen)
    | inFlight hin => exact .inr ⟨by rw [hhanded], Option.some.inj (hin.symm.trans hflight)⟩
    | output hown hopen hfd => exact .inl (.output ((howns ..).mp hown) hopen hfd)
  | @creates t fd tData hnew howns hflight hflight' hhanded hfds hcloses =>
    refine ⟨?_, hcloses.symm ▸ h.closes⟩
    rw [hfds]
    apply h.right.mono
    intro d n hd
    cases hd with
    | client hown hopen =>
      rcases (howns ..).mp hown with hown | ⟨-, -, rfl, rfl⟩
      · exact .client hown hopen
      · exact .inFlight hflight
    | inFlight hin => exact absurd (hflight'.symm.trans hin) nofun
    | output hown hopen hfd =>
      rcases (howns ..).mp hown with hown | ⟨-, rfl, -, -⟩
      · exact .output hown hopen hfd
      · exact absurd hopen (Nat.lt_irrefl 0)
  | joins hret howns hflight hhanded hfds hcloses =>
    refine ⟨?_, hcloses.symm ▸ h.closes⟩
    rw [hfds]
    exact h.right.mono fun d n =>
      claims_of_owns (fun t th k n ho => ((howns t th k n).mp ho).1) hflight hhanded
  | acts hown howns hflight hhanded hfiles =>
    exact h.act hcounts hown howns hflight hhanded hfiles
  | mainCloses hown howns hflight hhanded hfds hcloses =>
    exact absurd rfl (hmain _ (hcloses ▸ List.mem_append_right _ (List.mem_singleton_self _)))

end Claims

/-! ## What main closes -/

/-- If main is at `SLIST_EMPTY`, the list is empty. -/
def FindsListEmpty (s : Process) : Turn → Prop
  | .main _ => s.pc = .shutdown → s.slist.first = none
  | _ => True

instance (s : Process) : (turn : Turn) → Decidable (FindsListEmpty s turn)
  | .main _ => inferInstanceAs (Decidable (s.pc = .shutdown → s.slist.first = none))
  | .thread _ _ _ => isTrue trivial
  | .signal => isTrue trivial

/-- How many closes are main's. -/
def Process.mainCloses (s : Process) : Nat := s.closes.countP fun c => decide (c.party = .main)

section MainCloses

variable {s s' : Process}

theorem mainCloses_of_eq (h : s'.closes = s.closes) : s'.mainCloses = s.mainCloses := by
  rw [Process.mainCloses, h, Process.mainCloses]

theorem mainCloses_append {c : Close} (h : s'.closes = s.closes ++ [c]) :
    s'.mainCloses = s.mainCloses + if c.party = .main then 1 else 0 := by
  rw [Process.mainCloses, countP_closes h, Process.mainCloses]
  simp

/-- A thread closes nothing in main's name. -/
theorem mainCloses_threadStep {t : Tid} {o : Outcome} {fd : Fd}
    (hstep : s.threadStep t o fd = some s') : s'.mainCloses = s.mainCloses := by
  obtain ⟨th, a, act, c, s₁, -, -, -, hperform, rfl⟩ := threadStep_eq_some hstep
  have hown : ∀ d n, (s.close (.thread t) d n).mainCloses = s.mainCloses := by
    intro d n
    have happend : (s.close (.thread t) d n).closes = s.closes ++ [⟨.thread t, d, s.fds n⟩] := rfl
    rw [mainCloses_append happend, if_neg nofun, Nat.add_zero]
  show s₁.mainCloses = s.mainCloses
  by_cases hopen : act = .open true
  · rw [hopen] at hperform
    obtain ⟨-, rfl⟩ := openFd_eq_some hperform
    rfl
  by_cases hout : act = .closeOutput
  · rw [hout] at hperform
    obtain ⟨n, -, rfl⟩ := Option.map_eq_some_iff.mp hperform
    exact hown _ _
  by_cases hclient : act = .closeClient
  · rw [hclient] at hperform
    obtain rfl := Option.some.inj hperform
    exact hown _ _
  · exact mainCloses_of_eq (perform_other hopen hout hclient hperform).2

/-- Main closes a socket where it finds the list not empty, and nowhere else. -/
theorem mainCloses_mainStep {ans : Answer} (hact : MainActs s ans s') :
    s'.mainCloses = s.mainCloses + if FindsListEmpty s (.main ans) then 0 else 1 := by
  have hquiet : s.pc ≠ .shutdown → s'.closes = s.closes →
      s'.mainCloses = s.mainCloses + if FindsListEmpty s (.main ans) then 0 else 1 := by
    intro hpc hcloses
    have hfinds : FindsListEmpty s (.main ans) := fun h => absurd h hpc
    rw [if_pos hfinds, mainCloses_of_eq hcloses, Nat.add_zero]
  cases hact with
  | empties hpc hempty =>
    have hfinds : FindsListEmpty s (.main .go) := fun _ => hempty
    rw [if_pos hfinds]
    rfl
  | @closes datap a hpc hfirst hargs =>
    have hfinds : ¬ FindsListEmpty s (.main .go) :=
      fun h => absurd (hfirst.symm.trans (h hpc)) nofun
    have happend : (s.close .main (.client a.client) a.clientFd).closes =
        s.closes ++ [⟨.main, .client a.client, s.fds a.clientFd⟩] := rfl
    rw [if_neg hfinds]
    exact mainCloses_append happend
  | setsUp hpc hset =>
    obtain ⟨m, pc, quit, rfl⟩ := setUp_eq_some hset
    exact hquiet (by simp [hpc]) rfl
  | quits hpc hquit => exact hquiet (by simp [hpc]) rfl
  | passStarts hpc hquit => exact hquiet (by simp [hpc]) rfl
  | passEnds hpc => exact hquiet (by simp [hpc]) rfl
  | sees hpc hcell hargs hcomplete => exact hquiet (by simp [hpc]) rfl
  | keeps hpc hcell hargs hcomplete => exact hquiet (by simp [hpc]) rfl
  | joins hpc hjoin => exact hquiet (by simp [hpc]) rfl
  | reaps hpc hreap => exact hquiet (by simp [hpc]) rfl
  | acceptFails hpc => exact hquiet (by simp [hpc]) rfl
  | accepts hpc hfree => exact hquiet (by simp [hpc]) rfl
  | inserts hpc hinsert => exact hquiet (by simp [hpc]) rfl
  | shutdownJoins hpc hjoin => exact hquiet (by simp [hpc]) rfl
  | shutdownReaps hpc hreap => exact hquiet (by simp [hpc]) rfl
  | destroys hpc => exact hquiet (by simp [hpc]) rfl

theorem mainCloses_step {turn : Turn} {u : Unit} (hstep : s.step turn = some (u, s')) :
    s'.mainCloses = s.mainCloses + if FindsListEmpty s turn then 0 else 1 := by
  cases step_cases hstep with
  | main hact => exact mainCloses_mainStep hact
  | thread hthread => exact mainCloses_threadStep hthread
  | signal => rfl

theorem mainCloses_eq_zero : s.mainCloses = 0 ↔ ∀ c ∈ s.closes, c.party ≠ .main := by
  simp [Process.mainCloses, List.countP_eq_zero]

end MainCloses

/-! ## Runs -/

/-- How often the socket of connection `k` has been closed. -/
def Process.closedTimes (s : Process) (k : Nat) : Nat :=
  s.closes.countP fun c => decide (c.meant = .client k)

/-- Every close met the file it was for, no socket was closed twice, and when
    `run_server` has returned every socket has been closed. -/
structure ClosedOnce (s : Process) : Prop where
  right : ∀ c ∈ s.closes, c.found = some c.meant
  le_once : ∀ k < s.accepts, s.closedTimes k ≤ 1
  once : s.Returned → ∀ k < s.accepts, s.closedTimes k = 1

/-- A socket is closed by threads and by main. -/
theorem closedTimes_eq (s : Process) (k : Nat) :
    s.closedTimes k = s.threadCloses k +
      s.closes.countP fun c => decide (c.party = .main ∧ c.meant = .client k) := by
  unfold Process.closedTimes Process.threadCloses
  induction s.closes with
  | nil => rfl
  | cons c closes ih =>
    rw [List.countP_cons, List.countP_cons, List.countP_cons, ih]
    by_cases hparty : c.party = .main
    · simp [hparty]
      omega
    · simp [hparty]
      omega

/-- The invariant of the runs in which all calls succeed. -/
structure Closing (s : Process) : Prop where
  sound : Sound s
  counts : Counts s
  right : s.mainCloses = 0 → RightSoFar s

theorem Closing.step {s s' : Process} {turn : Turn} {u : Unit} (h : Closing s)
    (hok : turn.Succeeds) (hstep : s.step turn = some (u, s')) : Closing s' := by
  have heffect := step_effect h.sound hok hstep
  refine ⟨h.sound.step hstep, h.counts.step heffect, fun hnone => ?_⟩
  have hmore := mainCloses_step hstep
  have hright := h.right (by omega)
  exact hright.step h.counts heffect (mainCloses_eq_zero.mp hnone)

theorem run_closing {taken : Fd → Bool} {turns : List Turn} {us : List Unit} {s : Process}
    (hrun : run Process.step (.start taken) turns = some (us, s))
    (hok : ∀ turn ∈ turns, turn.Succeeds) : Closing s := by
  have hstart : Closing (.start taken) :=
    ⟨sound_start taken, counts_start taken, fun _ => rightSoFar_start taken⟩
  exact run_inv_of_meets (fun _ _ _ _ h hok hstep => h.step hok hstep) hstart hrun
    (meets_of_forall hok _)

section Outcome

variable {s : Process}

theorem Counts.threadCloses_le (h : Counts s) (k : Nat) : s.threadCloses k ≤ 1 := by
  rcases Nat.lt_or_ge k s.handed with hk | hk
  · rcases h.closed k hk with ⟨t, th, n, hown⟩ | hclosed
    · have honce := h.once t th k n hown
      omega
    · exact Nat.le_of_eq hclosed
  · rw [h.unborn k hk]
    exact Nat.zero_le _

/-- When main has returned every thread has closed its socket. -/
theorem Closing.threadCloses_eq (h : Closing s) (hret : s.Returned) {k : Nat}
    (hk : k < s.accepts) : s.threadCloses k = 1 := by
  have hflight : s.inFlight = none := by
    rw [Process.inFlight, show s.pc = .returned from hret]
  rw [← handed_of_none hflight] at hk
  rcases h.counts.closed k hk with ⟨t, th, n, hown⟩ | hclosed
  · -- it would have been joined
    obtain ⟨⟨pending, listed, hbooks, -⟩, -⟩ := h.sound
    have hcreated := hbooks.mem_created t th hown.thread
    exact absurd ((h.sound.bookkeeping.joined_all hret t).mp hcreated) hown.unjoined
  · exact hclosed

/-- As long as main has closed nothing, all is well. -/
theorem Closing.closedOnce (h : Closing s) (hnone : s.mainCloses = 0) : ClosedOnce s := by
  have htimes : ∀ k, s.closedTimes k = s.threadCloses k := by
    intro k
    rw [closedTimes_eq, Nat.add_eq_left, List.countP_eq_zero]
    intro c hc
    simp [mainCloses_eq_zero.mp hnone c hc]
  exact {
    right := (h.right hnone).closes
    le_once := fun k _ => by rw [htimes]; exact h.counts.threadCloses_le k
    once := fun hret k hk => by rw [htimes]; exact h.threadCloses_eq hret hk }

/-- A socket that main closes is closed by its thread too. -/
theorem Closing.mainCloses_eq_zero (h : Closing s) (hret : s.Returned) (honce : ClosedOnce s) :
    s.mainCloses = 0 := by
  rw [Aesd.Server.mainCloses_eq_zero]
  intro c hc hparty
  obtain ⟨k, hk, hmeant⟩ := h.counts.main_meant c hc hparty
  have hflight : s.inFlight = none := by
    rw [Process.inFlight, show s.pc = .returned from hret]
  rw [handed_of_none hflight] at hk
  have hpos : 0 < s.closes.countP fun c => decide (c.party = .main ∧ c.meant = .client k) :=
    List.countP_pos_iff.mpr ⟨c, hc, by simp [hparty, hmeant]⟩
  have htwice := closedTimes_eq s k
  rw [honce.once hret k hk, h.threadCloses_eq hret hk] at htwice
  omega

end Outcome

/-- With every `open`, `malloc` and `pthread_create` succeeding, sockets are closed
    once, and each close meets the socket it is for, as long as main finds the list
    empty when it has left the main loop; a run of `run_server` that ends has closed
    them so only then. -/
theorem run_server_closes_once_iff {taken : Fd → Bool} {turns : List Turn} {us : List Unit}
    {s : Process} (hrun : run Process.step (.start taken) turns = some (us, s))
    (hok : ∀ turn ∈ turns, turn.Succeeds) :
    (Meets Process.step FindsListEmpty (.start taken) turns → ClosedOnce s) ∧
      (s.Returned → (ClosedOnce s ↔ Meets Process.step FindsListEmpty (.start taken) turns)) := by
  have hclosing := run_closing hrun hok
  have hmeets : Meets Process.step FindsListEmpty (.start taken) turns ↔ s.mainCloses = 0 :=
    (meets_iff_measure (fun _ _ _ _ hstep => mainCloses_step hstep) hrun).1
  rw [hmeets]
  exact ⟨hclosing.closedOnce, fun hret =>
    ⟨hclosing.mainCloses_eq_zero hret, hclosing.closedOnce⟩⟩

/-- A client is served and its thread reaped before the signal arrives. -/
def reapedInTime : List Turn :=
  newConnection 0 4 100 200 0 300 ++ hangsUp 0 5 ++ List.replicate 5 (.main .go) ++
    [.signal, .main (.accepted none)] ++ List.replicate 3 (.main .go)

theorem reapedInTime_closes_once :
    ∃ us s, run Process.step (.start fun fd => decide (fd < 4)) reapedInTime = some (us, s) ∧
      s.pc = .returned ∧ s.accepts = 1 ∧ ClosedOnce s := by
  have hend : (run Process.step (.start fun fd => decide (fd < 4)) reapedInTime).map
      (fun r => (r.2.pc, r.2.accepts)) = some (.returned, 1) := rfl
  have hok : ∀ turn ∈ reapedInTime, turn.Succeeds := by
    simp [reapedInTime, newConnection, hangsUp, Turn.Succeeds]
  have hmeets :
      Meets Process.step FindsListEmpty (.start fun fd => decide (fd < 4)) reapedInTime := by
    decide
  obtain ⟨⟨us, s⟩, hrun, heq⟩ := Option.map_eq_some_iff.mp hend
  obtain ⟨hpc, haccepts⟩ := Prod.mk.inj heq
  exact ⟨us, s, hrun, hpc, haccepts, (run_server_closes_once_iff hrun hok).1 hmeets⟩

/-- The thread is done, but the signal comes before it is reaped. -/
def signalFirst : List Turn :=
  newConnection 0 4 100 200 0 300 ++ hangsUp 0 5 ++ [.signal] ++ List.replicate 6 (.main .go)

/-- Main closes a number that the thread has given back. -/
theorem signalFirst_closes_twice :
    ∃ us s, run Process.step (.start fun fd => decide (fd < 4)) signalFirst = some (us, s) ∧
      (∀ turn ∈ signalFirst, turn.Succeeds) ∧ s.pc = .returned ∧
      s.closes = [⟨.thread 0, .client 0, some (.client 0)⟩,
        ⟨.thread 0, .output 0, some (.output 0)⟩, ⟨.main, .client 0, none⟩] ∧
      ¬ ClosedOnce s := by
  have hend : (run Process.step (.start fun fd => decide (fd < 4)) signalFirst).map
      (fun r => (r.2.pc, r.2.closes)) = some (.returned,
        [⟨.thread 0, .client 0, some (.client 0)⟩,
          ⟨.thread 0, .output 0, some (.output 0)⟩, ⟨.main, .client 0, none⟩]) := rfl
  have hok : ∀ turn ∈ signalFirst, turn.Succeeds := by
    simp [signalFirst, newConnection, hangsUp, Turn.Succeeds]
  obtain ⟨⟨us, s⟩, hrun, heq⟩ := Option.map_eq_some_iff.mp hend
  obtain ⟨hpc, hcloses⟩ := Prod.mk.inj heq
  refine ⟨us, s, hrun, hok, hpc, hcloses, fun honce => ?_⟩
  have hlast := honce.right ⟨.main, .client 0, none⟩ (hcloses.symm ▸ by simp)
  cases hlast

end Aesd.Server
