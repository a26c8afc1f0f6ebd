/-
  Aesd.Server.Descriptors

  What becomes of the descriptors of the process, whatever fails.  A number that
  is open was so before `run_server`, or somebody will still close it: the
  thread that has opened it, the thread whose client it is, or main for a thread
  that could not open the device, which main joins only at the end
  (`Charged`).  A second close of a number never reaches one that was open
  before, and when `run_server` has returned nothing is left but the socket of
  a set-up that has failed (`run_server_closes`).
-/
import Aesd.Server.Memory

namespace Aesd.Server

open Aesd.Lib

/-! ## What a thread leaves to close -/

/-- The set-up of a connection fails, and main forgets its socket. -/
def Turn.Drops : Turn → Prop
  | .main (.setUp (.created _ _ _)) => False
  | .main (.setUp _) => True
  | _ => False

/-- How often a thread at this place has still to set `thread_complete`. -/
def toComplete : Pc → Nat
  | .exit todo => todo.count .setComplete
  | _ => 1

/-- The client's socket is still to be closed: by the thread, or by main because the thread is
    on its way out without having set `thread_complete`. -/
def Control.Owes (c : Control) : Prop :=
  toClose c.pc = 1 ∨ toComplete c.pc = 0 ∧ c.threadComplete = false

/-- A thread that main reaps in its loop owes nothing. -/
theorem not_owes {c : Control} (hret : c.Returned) (hcomplete : c.threadComplete = true) :
    ¬ c.Owes := by
  rintro (hclose | ⟨-, hfalse⟩)
  · rw [show c.pc = .exit [] from hret] at hclose
    cases hclose
  · rw [hcomplete] at hfalse
    cases hfalse

section Steps

variable {c c' : Control} {o : Outcome} {act : Action} {acts : List Action}

theorem open_of_openFails (hstep : c.step (.opened false) = some (act, c')) :
    c.pc = .open ∧ c'.threadComplete = c.threadComplete := by
  cases control_cases hstep with
  | openFails hpc => exact ⟨hpc, rfl⟩

/-- Behind the last `thread_complete = true` of the way out the flag stays as it is. -/
theorem deserts_step (hcomplete : toComplete c.pc = 0) (hstep : c.step o = some (act, c')) :
    toComplete c'.pc = 0 ∧ c'.threadComplete = c.threadComplete := by
  cases control_cases hstep with
  | @leaves op todo hpc =>
    rw [hpc] at hcomplete
    rw [exit_pc]
    cases op with
    | setComplete => simp [toComplete] at hcomplete
    | closeClient => exact ⟨by simpa [toComplete] using hcomplete, rfl⟩
    | setSuccess success => exact ⟨by simpa [toComplete] using hcomplete, rfl⟩
    | closeOutput => exact ⟨by simpa [toComplete] using hcomplete, rfl⟩
    | unlock => exact ⟨by simpa [toComplete] using hcomplete, rfl⟩
  | begins hpc | locks hpc | opens hpc | openFails hpc | receives hpc | seeks hpc | writes hpc
  | reads hpc | sends hpc =>
    rw [hpc] at hcomplete
    cases hcomplete

/-- Only the `close` itself pays the debt. -/
theorem Control.Owes.step (h : c.Owes) (hstage : Stage acts c) (hact : act ≠ .closeClient)
    (hstep : c.step o = some (act, c')) : c'.Owes := by
  rcases h with hclose | ⟨hcomplete, hfalse⟩
  · by_cases ho : o = .opened false
    · -- the thread leaves its socket to main
      subst ho
      obtain ⟨hpc, hsame⟩ := open_of_openFails hstep
      rw [Stage, hpc] at hstage
      refine .inr ⟨?_, hsame.trans hstage.2.1⟩
      rw [(eq_of_openFails hstep).2]
      rfl
    · cases step_leaves ho hstep with
      | opens hsame hbefore hafter => exact .inl (hsame.trans hclose)
      | closesOutput hsame houtput => exact .inl (hsame.trans hclose)
      | closesClient => exact absurd rfl hact
      | other hopen hout hclient hsame houtput => exact .inl (hsame.trans hclose)
  · obtain ⟨hcomplete', hsame⟩ := deserts_step hcomplete hstep
    exact .inr ⟨hcomplete', hsame.trans hfalse⟩

/-- The flag, once it is set, is set until the thread begins again, which it does not. -/
theorem complete_step (hstage : Stage acts c) (hcomplete : c.threadComplete = true)
    (hstep : c.step o = some (act, c')) : c'.threadComplete = true := by
  cases control_cases hstep with
  | begins hpc =>
    rw [Stage, hpc] at hstage
    rw [hstage.2.1] at hcomplete
    cases hcomplete
  | @leaves op =>
    cases op with
    | setComplete => rfl
    | closeClient => exact hcomplete
    | setSuccess success => exact hcomplete
    | closeOutput => exact hcomplete
    | unlock => exact hcomplete
  | _ => exact hcomplete

end Steps

/-- What an action of thread `t` does to the descriptors: `n` is its client's, and `fd` the one
    that an `open` answers. -/
inductive Touches (s s' : Process) (t : Tid) (th : Thread) (n fd : Fd) : Action → Prop where
  | opens (hfree : s.fds fd = none)
    (hfds : s'.fds = Function.update s.fds fd (some (.output t))) :
    Touches s s' t th n fd (.open true)
  | closesOutput {m : Fd} (hfd : th.outputFd = some m)
    (hfds : s'.fds = Function.update s.fds m none) : Touches s s' t th n fd .closeOutput
  | closesClient (hfds : s'.fds = Function.update s.fds n none) :
    Touches s s' t th n fd .closeClient
  | other {act : Action} (hopen : act ≠ .open true) (hout : act ≠ .closeOutput)
    (hclient : act ≠ .closeClient) (hfds : s'.fds = s.fds) : Touches s s' t th n fd act

theorem perform_touches {s s₁ : Process} {t : Tid} {th : Thread} {a : ConnectionThreadArgs}
    {fd : Fd} {act : Action} (h : s.perform t th a fd act = some s₁) :
    Touches s s₁ t th a.clientFd fd act := by
  by_cases hopen : act = .open true
  · subst hopen
    rw [Process.perform.eq_def] at h
    obtain ⟨hfree, rfl⟩ := openFd_eq_some h
    exact .opens hfree rfl
  by_cases hout : act = .closeOutput
  · subst hout
    rw [Process.perform.eq_def] at h
    obtain ⟨n, hn, rfl⟩ := Option.map_eq_some_iff.mp h
    exact .closesOutput hn rfl
  by_cases hclient : act = .closeClient
  · subst hclient
    rw [Process.perform.eq_def] at h
    obtain rfl := Option.some.inj h
    exact .closesClient rfl
  · exact .other hopen hout hclient (perform_other hopen hout hclient h).1

/-! ## Who will close what -/

/-- Main has closed the socket of the thread with these arguments, and waits for it. -/
def Process.Hung (s : Process) (p : Addr) : Prop :=
  ∃ datap c, s.pc = .shutdownJoin datap ∧ s.slist.cell datap = some c ∧ c.data.connection = p

/-- Thread `t`, or main for it, has still to close its client's socket, `fd`. -/
structure Process.OwesClient (s : Process) (t : Tid) (fd : Fd) (d : Description)
    (th : Thread) (a : ConnectionThreadArgs) : Prop where
  thread : s.threads t = some th
  unjoined : t ∉ s.joined
  args : s.args th.connectionData = some a
  fd_eq : a.clientFd = fd
  desc_eq : d = .client a.client
  owes : (th.control a).Owes
  notHung : ¬ s.Hung th.connectionData

/-- What keeps number `fd` open for `d`; `lost` is the socket of a set-up that has failed. -/
inductive Charged (s : Process) (lost : Option Fd) (fd : Fd) (d : Description) : Prop where
  | inFlight (hpc : s.pc = .setUp fd) (hd : d = .client (s.accepts - 1))
  | lost (hlost : lost = some fd) (hd : d = .client (s.accepts - 1))
  | output {t : Tid} {th : Thread} (hth : s.threads t = some th) (hfd : th.outputFd = some fd)
    (hleft : toCloseOutput th.pc = 1) (hd : d = .output t)
  | client {t : Tid} {th : Thread} {a : ConnectionThreadArgs} (h : s.OwesClient t fd d th a)

/-- Numbers that were open before are, for what they were; each other one that is open is
    charged to somebody. -/
structure Settles (taken : Fd → Bool) (s : Process) (lost : Option Fd) : Prop where
  kept : ∀ fd, taken fd = true → s.fds fd = some .other
  charged : ∀ fd d, s.fds fd = some d → taken fd = true ∨ Charged s lost fd d
  outputs : ∀ t th fd, s.threads t = some th → th.outputFd = some fd → taken fd = false
  clients : ∀ p a, s.args p = some a → taken a.clientFd = false
  inFlight : ∀ fd, s.pc = .setUp fd → taken fd = false
  staged : ∀ t th a, s.threads t = some th → t ∉ s.joined → s.args th.connectionData = some a →
    ∃ acts, Stage acts (th.control a)
  joins : ∀ datap tmp a, s.pc = .join datap tmp → s.connection datap = some a →
    a.threadComplete = true
  leaving : lost ≠ none → s.Leaving

theorem settles_start (taken : Fd → Bool) : Settles taken (.start taken) none where
  kept fd h := by
    show (if taken fd then some Description.other else none) = _
    rw [h]
    rfl
  charged fd d h := by
    left
    by_contra hfree
    have hnone : (if taken fd then some Description.other else none) = some d := h
    rw [if_neg hfree] at hnone
    cases hnone
  outputs t th fd h := by cases h
  clients p a h := by cases h
  inFlight fd h := by cases h
  staged t th a h := by cases h
  joins datap tmp a h := by cases h
  leaving h := absurd rfl h

section Step

variable {taken : Fd → Bool} {s s' : Process} {lost : Option Fd}

/-- A number that was not open before is opened or closed. -/
theorem kept_update (h : ∀ fd, taken fd = true → s.fds fd = some .other) {n : Fd}
    (hn : taken n = false) (d : Option Description) (fd : Fd) (hfd : taken fd = true) :
    Function.update s.fds n d fd = some .other := by
  have hne : fd ≠ n := by
    rintro rfl
    rw [hn] at hfd
    cases hfd
  rw [Function.update_of_ne hne, h fd hfd]

/-- A free number was not open before. -/
theorem Settles.not_taken (h : Settles taken s lost) {fd : Fd} (hfree : s.fds fd = none) :
    taken fd = false := by
  by_contra htaken
  have hopen := h.kept fd (by simpa using htaken)
  rw [hfree] at hopen
  cases hopen

/-- No set-up has failed before main's last one. -/
theorem Settles.nothing_lost (h : Settles taken s lost) (hleft : ¬ s.Leaving) : lost = none :=
  by_contra fun hlost => hleft (h.leaving hlost)

/-- Thread `t`, at `th` with arguments `a`, acts and gets to `c`. -/
structure Acted (s s' : Process) (t : Tid) (th : Thread) (a : ConnectionThreadArgs) (o : Outcome)
    (fd : Fd) (act : Action) (c : Control) : Prop where
  thread : s.threads t = some th
  args : s.args th.connectionData = some a
  step : (th.control a).step o = some (act, c)
  touches : Touches s s' t th a.clientFd fd act
  threads_eq : s'.threads = Function.update s.threads t (some (th.after c fd act))
  args_eq : s'.args = Function.update s.args th.connectionData (some (a.after c))
  slist_eq : s'.slist = s.slist
  joined_eq : s'.joined = s.joined
  pc_eq : s'.pc = s.pc
  quit_eq : s'.quit = s.quit
  accepts_eq : s'.accepts = s.accepts

theorem threadStep_acted {t : Tid} {o : Outcome} {fd : Fd} (h : s.threadStep t o fd = some s') :
    ∃ th a act c, Acted s s' t th a o fd act c := by
  obtain ⟨th, a, act, c, s₁, hth, ha, hc, hperform, rfl⟩ := threadStep_eq_some h
  have htouches := perform_touches hperform
  obtain ⟨fileMutex, fds, closes, rfl, -⟩ := perform_eq_some hperform
  refine ⟨th, a, act, c, hth, ha, hc, ?_, rfl, rfl, rfl, rfl, rfl, rfl, rfl⟩
  cases htouches with
  | opens hfree hfds => exact .opens hfree hfds
  | closesOutput hfd hfds => exact .closesOutput hfd hfds
  | closesClient hfds => exact .closesClient hfds
  | other hopen hout hclient hfds => exact .other hopen hout hclient hfds

namespace Acted

variable {t : Tid} {th : Thread} {a : ConnectionThreadArgs} {o : Outcome} {fd : Fd}
  {act : Action} {c : Control} {es : List Entry}

theorem self (h : Acted s s' t th a o fd act c) : s'.threads t = some (th.after c fd act) := by
  rw [h.threads_eq, Function.update_self]

theorem self_args (h : Acted s s' t th a o fd act c) :
    s'.args th.connectionData = some (a.after c) := by
  rw [h.args_eq, Function.update_self]

theorem other (h : Acted s s' t th a o fd act c) {u : Tid} (hut : u ≠ t) :
    s'.threads u = s.threads u := by
  rw [h.threads_eq, Function.update_of_ne hut]

theorem unjoined (h : Acted s s' t th a o fd act c) (hbooks : Books s.toRecords es) :
    t ∉ s.joined :=
  hbooks.notMem_joined h.thread (not_returned_of_step h.step)

theorem other_args (h : Acted s s' t th a o fd act c) (hbooks : Books s.toRecords es) {u : Tid}
    {thu : Thread} (hut : u ≠ t) (hu : s.threads u = some thu) (hnot : u ∉ s.joined) :
    s'.args thu.connectionData = s.args thu.connectionData := by
  rw [h.args_eq]
  refine Function.update_of_ne (fun heq => hut ?_) ..
  exact hbooks.data_inj hu hnot h.thread (h.unjoined hbooks) heq

theorem hung_iff (h : Acted s s' t th a o fd act c) (p : Addr) : s'.Hung p ↔ s.Hung p := by
  rw [Process.Hung, Process.Hung, h.pc_eq, h.slist_eq]

/-- The device's descriptor of the thread itself, if this is not its close. -/
theorem output (h : Acted s s' t th a o fd act c) {n : Fd} (hfd : th.outputFd = some n)
    (hleft : toCloseOutput th.pc = 1) (hout : act ≠ .closeOutput) :
    (th.after c fd act).outputFd = some n ∧ toCloseOutput (th.after c fd act).pc = 1 := by
  have hpc : (th.control a).pc = th.pc := rfl
  have hsame : act ≠ .open true → (th.after c fd act).outputFd = some n := fun hact =>
    (if_neg hact).trans hfd
  have hstep := h.step
  by_cases ho : o = .opened false
  · -- a thread that opens the device has nothing open yet
    subst ho
    rw [← hpc, (open_of_openFails hstep).1] at hleft
    cases hleft
  · cases step_leaves ho hstep with
    | opens hclose hbefore hafter =>
      rw [hpc, hleft] at hbefore
      cases hbefore
    | closesOutput => exact absurd rfl hout
    | closesClient hclose houtput => exact ⟨hsame nofun, houtput.trans hleft⟩
    | other hopen hnotOut hclient hclose houtput => exact ⟨hsame hopen, houtput.trans hleft⟩

/-- Who is charged with a number that the action does not close stays so. -/
theorem charged (h : Acted s s' t th a o fd act c) (hset : Settles taken s lost)
    (hbooks : Books s.toRecords es) {n : Fd} {d : Description} (hcharged : Charged s lost n d)
    (hout : act = .closeOutput → th.outputFd ≠ some n)
    (hclient : act = .closeClient → a.clientFd ≠ n) : Charged s' lost n d := by
  cases hcharged with
  | inFlight hpc hd => exact .inFlight (h.pc_eq.trans hpc) (h.accepts_eq ▸ hd)
  | lost hlost hd => exact .lost hlost (h.accepts_eq ▸ hd)
  | @output u thu hu hfd hleft hd =>
    by_cases hut : u = t
    · subst hut
      obtain rfl := Option.some.inj (h.thread.symm.trans hu)
      obtain ⟨hfd', hleft'⟩ := h.output hfd hleft fun hact => hout hact hfd
      exact .output h.self hfd' hleft' hd
    · exact .output ((h.other hut).trans hu) hfd hleft hd
  | @client u thu au hu =>
    obtain ⟨hthu, hnotu, hau, hfd, hd, howes, hhung⟩ := hu
    rw [← h.hung_iff] at hhung
    by_cases hut : u = t
    · subst hut
      obtain rfl := Option.some.inj (h.thread.symm.trans hthu)
      obtain rfl := Option.some.inj (h.args.symm.trans hau)
      obtain ⟨acts, hstage⟩ := hset.staged u th a hthu hnotu hau
      have howes' := howes.step hstage (fun hact => hclient hact hfd) h.step
      exact .client ⟨h.self, h.joined_eq ▸ hnotu, h.self_args, hfd, hd, howes', hhung⟩
    · exact .client ⟨(h.other hut).trans hthu, h.joined_eq ▸ hnotu,
        (h.other_args hbooks hut hthu hnotu).trans hau, hfd, hd, howes, hhung⟩

/-- A number that is open behind the action was open before, and not closed by it, or is the one
    that it has opened. -/
theorem opened (h : Acted s s' t th a o fd act c) {n : Fd} {d : Description}
    (hn : s'.fds n = some d) :
    (s.fds n = some d ∧ (act = .closeOutput → th.outputFd ≠ some n) ∧
      (act = .closeClient → a.clientFd ≠ n)) ∨ act = .open true ∧ n = fd ∧ d = .output t := by
  cases h.touches with
  | opens hfree hfds =>
    rw [hfds] at hn
    by_cases hnfd : n = fd
    · rw [hnfd, Function.update_self, Option.some.injEq] at hn
      exact .inr ⟨rfl, hnfd, hn.symm⟩
    · rw [Function.update_of_ne hnfd] at hn
      exact .inl ⟨hn, nofun, nofun⟩
  | @closesOutput m hfd hfds =>
    have hnm : n ≠ m := by
      rintro rfl
      rw [hfds, Function.update_self] at hn
      cases hn
    rw [hfds, Function.update_of_ne hnm] at hn
    refine .inl ⟨hn, fun _ => ?_, nofun⟩
    rw [hfd]
    exact fun heq => hnm (Option.some.inj heq).symm
  | closesClient hfds =>
    have hne : n ≠ a.clientFd := by
      rintro rfl
      rw [hfds, Function.update_self] at hn
      cases hn
    rw [hfds, Function.update_of_ne hne] at hn
    exact .inl ⟨hn, nofun, fun _ => hne.symm⟩
  | other hopen hout hclient hfds =>
    rw [hfds] at hn
    exact .inl ⟨hn, fun heq => absurd heq hout, fun heq => absurd heq hclient⟩

/-- Numbers that were open before stay so. -/
theorem kept (h : Acted s s' t th a o fd act c) (hset : Settles taken s lost) (n : Fd)
    (hn : taken n = true) : s'.fds n = some .other := by
  cases h.touches with
  | opens hfree hfds => exact hfds ▸ kept_update hset.kept (hset.not_taken hfree) _ n hn
  | closesOutput hfd hfds =>
    exact hfds ▸ kept_update hset.kept (hset.outputs t th _ h.thread hfd) _ n hn
  | closesClient hfds => exact hfds ▸ kept_update hset.kept (hset.clients _ a h.args) _ n hn
  | other hopen hout hclient hfds => exact hfds ▸ hset.kept n hn

/-- The thread's number of the device, if it has one, is not among them. -/
theorem output_free (h : Acted s s' t th a o fd act c) (hset : Settles taken s lost) {n : Fd}
    (hn : (th.after c fd act).outputFd = some n) : taken n = false := by
  by_cases hopen : act = .open true
  · obtain rfl := Option.some.inj ((if_pos hopen).symm.trans hn)
    cases h.touches with
    | opens hfree hfds => exact hset.not_taken hfree
    | other hnot => exact absurd hopen hnot
    | closesOutput => cases hopen
    | closesClient => cases hopen
  · exact hset.outputs t th n h.thread ((if_neg hopen).symm.trans hn)

/-- The thread that main is about to join stays complete. -/
theorem joins (h : Acted s s' t th a o fd act c) (hset : Settles taken s lost)
    (hbooks : Books s.toRecords es) {datap : Addr} {tmp : Option Addr} {b : ConnectionThreadArgs}
    (hpc : s.pc = .join datap tmp) (hb : s'.connection datap = some b) :
    b.threadComplete = true := by
  obtain ⟨cell, hcell, hb⟩ := Option.bind_eq_some_iff.mp hb
  rw [h.slist_eq] at hcell
  by_cases hp : cell.data.connection = th.connectionData
  · obtain rfl := Option.some.inj (h.self_args.symm.trans (hp ▸ hb))
    obtain ⟨acts, hstage⟩ := hset.staged t th a h.thread (h.unjoined hbooks) h.args
    have hbefore : s.connection datap = some a :=
      Option.bind_eq_some_iff.mpr ⟨cell, hcell, hp ▸ h.args⟩
    exact complete_step hstage (hset.joins datap tmp a hpc hbefore) h.step
  · rw [h.args_eq, Function.update_of_ne hp] at hb
    exact hset.joins datap tmp b hpc (Option.bind_eq_some_iff.mpr ⟨cell, hcell, hb⟩)

end Acted

/-- A thread closes what it has opened, or its client's socket, and nothing else. -/
theorem Settles.threadStep (h : Settles taken s lost) {es : List Entry}
    (hbooks : Books s.toRecords es) {t : Tid} {o : Outcome} {fd : Fd}
    (hstep : s.threadStep t o fd = some s') : Settles taken s' lost := by
  obtain ⟨th, a, act, c, hacted⟩ := threadStep_acted hstep
  exact {
    kept := hacted.kept h
    charged := by
      intro n d hn
      rcases hacted.opened hn with ⟨hold, hout, hclient⟩ | ⟨rfl, rfl, rfl⟩
      · exact (h.charged n d hold).imp_right fun hcharged =>
          hacted.charged h hbooks hcharged hout hclient
      · have ho : o ≠ .opened false := by
          rintro rfl
          cases (eq_of_openFails hacted.step).1
        cases step_leaves ho hacted.step with
        | opens hclose hbefore hafter => exact .inr (.output hacted.self rfl hafter rfl)
        | other hopen => exact absurd rfl hopen
    outputs := by
      intro u thu n hu hn
      by_cases hut : u = t
      · obtain rfl := Option.some.inj (hacted.self.symm.trans (hut ▸ hu))
        exact hacted.output_free h hn
      · exact h.outputs u thu n ((hacted.other hut).symm.trans hu) hn
    clients := by
      intro p b hb
      by_cases hp : p = th.connectionData
      · obtain rfl := Option.some.inj (hacted.self_args.symm.trans (hp ▸ hb))
        exact h.clients _ a hacted.args
      · rw [hacted.args_eq, Function.update_of_ne hp] at hb
        exact h.clients p b hb
    inFlight := fun n hpc => h.inFlight n (hacted.pc_eq.symm.trans hpc)
    staged := by
      intro u thu b hu hnot hb
      rw [hacted.joined_eq] at hnot
      by_cases hut : u = t
      · subst hut
        obtain rfl := Option.some.inj (hacted.self.symm.trans hu)
        obtain rfl := Option.some.inj (hacted.self_args.symm.trans hb)
        obtain ⟨acts, hstage⟩ := h.staged u th a hacted.thread hnot hacted.args
        exact ⟨acts ++ [act], stage_step hstage hacted.step⟩
      · have hold := (hacted.other hut).symm.trans hu
        exact h.staged u thu b hold hnot ((hacted.other_args hbooks hut hold hnot).symm.trans hb)
    joins := fun datap tmp b hpc hb => hacted.joins h hbooks (hacted.pc_eq.symm.trans hpc) hb
    leaving := by
      intro hlost
      have hleaving := h.leaving hlost
      rwa [Process.Leaving, ← hacted.pc_eq, ← hacted.quit_eq] at hleaving }

variable {pending : List Entry} {listed : List (Addr × Entry)}

/-- A step of main that leaves the descriptors alone.  It may join a thread that owes nothing,
    and give back the arguments of one that is joined. -/
theorem Settles.congr (h : Settles taken s lost) (hfds : s'.fds = s.fds)
    (haccepts : s'.accepts = s.accepts) (hthreads : s'.threads = s.threads)
    (hjoined : ∀ t, t ∉ s'.joined → t ∉ s.joined)
    (hargs : ∀ p a, s'.args p = some a → s.args p = some a)
    (howes : ∀ t fd d th a, s.OwesClient t fd d th a →
      t ∉ s'.joined ∧ s'.args th.connectionData = some a)
    (hpc : ∀ fd, s.pc ≠ .setUp fd) (hpc' : ∀ fd, s'.pc ≠ .setUp fd)
    (hhung : ∀ datap, s'.pc ≠ .shutdownJoin datap)
    (hjoins : ∀ datap tmp a, s'.pc = .join datap tmp → s'.connection datap = some a →
      a.threadComplete = true)
    (hleaving : s.Leaving → s'.Leaving) : Settles taken s' lost where
  kept := hfds ▸ h.kept
  charged fd d hfd := by
    rw [hfds] at hfd
    refine (h.charged fd d hfd).imp_right fun hcharged => ?_
    cases hcharged with
    | inFlight hset hd => exact absurd hset (hpc fd)
    | lost hlost hd => exact .lost hlost (haccepts ▸ hd)
    | output hth hout hleft hd => exact .output (hthreads ▸ hth) hout hleft hd
    | @client t th a howe =>
      obtain ⟨hnot, ha⟩ := howes t fd d th a howe
      refine .client ⟨hthreads ▸ howe.thread, hnot, ha, howe.fd_eq, howe.desc_eq, howe.owes, ?_⟩
      rintro ⟨datap, c, hwaits, -⟩
      exact hhung datap hwaits
  outputs t th fd hth hfd := h.outputs t th fd (hthreads ▸ hth) hfd
  clients p a ha := h.clients p a (hargs p a ha)
  inFlight fd hset := absurd hset (hpc' fd)
  staged t th a hth hnot ha := h.staged t th a (hthreads ▸ hth) (hjoined t hnot) (hargs _ a ha)
  joins := hjoins
  leaving hlost := hleaving (h.leaving hlost)

/-- A step that only moves main. -/
theorem Settles.moves (h : Settles taken s lost) (hfds : s'.fds = s.fds)
    (haccepts : s'.accepts = s.accepts) (hthreads : s'.threads = s.threads)
    (hjoined : s'.joined = s.joined) (hargs : s'.args = s.args)
    (hpc : ∀ fd, s.pc ≠ .setUp fd) (hpc' : ∀ fd, s'.pc ≠ .setUp fd)
    (hhung : ∀ datap, s'.pc ≠ .shutdownJoin datap)
    (hjoins : ∀ datap tmp a, s'.pc = .join datap tmp → s'.connection datap = some a →
      a.threadComplete = true)
    (hleaving : s.Leaving → s'.Leaving) : Settles taken s' lost :=
  h.congr hfds haccepts hthreads (fun _ hnot => hjoined ▸ hnot) (fun _ _ ha => hargs ▸ ha)
    (fun _ _ _ _ _ howe => ⟨hjoined ▸ howe.unjoined, hargs ▸ howe.args⟩) hpc hpc' hhung hjoins
    hleaving

/-- The arguments of a thread that is not joined are not those of a joined one. -/
theorem Books.data_ne {m : Records} {es : List Entry} (h : Books m es) {e : Entry} (he : e ∈ es)
    (hjoined : e.worker ∈ m.joined) {t : Tid} {th : Thread} (hth : m.threads t = some th)
    (hnot : t ∉ m.joined) : th.connectionData ≠ e.connection := by
  intro heq
  obtain ⟨e', he', rfl, hconn⟩ := h.exists_entry hth hnot
  obtain rfl := List.inj_on_of_nodup_map h.connections he' he (hconn.trans heq)
  exact hnot hjoined

/-- Nor is a free address that of its arguments. -/
theorem Books.args_new {m : Records} {es : List Entry} (h : Books m es) {tData : Addr}
    (hfree : m.args tData = none) (b : ConnectionThreadArgs) {t : Tid} {th : Thread}
    (hth : m.threads t = some th) (hnot : t ∉ m.joined) :
    Function.update m.args tData (some b) th.connectionData = m.args th.connectionData := by
  obtain ⟨e, he, -, hconn⟩ := h.exists_entry hth hnot
  rw [Function.update_of_ne (hconn ▸ h.connection_ne hfree he)]

/-- The set-up fails: the socket in flight is the one that is lost. -/
theorem Settles.drops (h : Settles taken s none) {clientFd : Fd} (hpc : s.pc = .setUp clientFd)
    (hfds : s'.fds = s.fds) (haccepts : s'.accepts = s.accepts) (hthreads : s'.threads = s.threads)
    (hjoined : s'.joined = s.joined)
    (hargs : ∀ p a, s'.args p = some a → s.args p = some a ∨ a.clientFd = clientFd)
    (hsame : ∀ t th, s.threads t = some th → t ∉ s.joined →
      s'.args th.connectionData = s.args th.connectionData)
    (hpc' : s'.pc = .loop) (hquit : s'.quit = true) : Settles taken s' (some clientFd) where
  kept := hfds ▸ h.kept
  charged fd d hfd := by
    rw [hfds] at hfd
    refine (h.charged fd d hfd).imp_right fun hcharged => ?_
    cases hcharged with
    | inFlight hset hd =>
      obtain rfl := MainPc.setUp.inj (hpc.symm.trans hset)
      exact .lost rfl (haccepts ▸ hd)
    | lost hlost => cases hlost
    | output hth hout hleft hd => exact .output (hthreads ▸ hth) hout hleft hd
    | @client t th a howe =>
      have ha := (hsame t th howe.thread howe.unjoined).trans howe.args
      refine .client ⟨hthreads ▸ howe.thread, hjoined ▸ howe.unjoined, ha, howe.fd_eq,
        howe.desc_eq, howe.owes, ?_⟩
      rintro ⟨datap, c, hwaits, -⟩
      rw [hpc'] at hwaits
      cases hwaits
  outputs t th fd hth hfd := h.outputs t th fd (hthreads ▸ hth) hfd
  clients p a ha := by
    rcases hargs p a ha with hold | rfl
    · exact h.clients p a hold
    · exact h.inFlight _ hpc
  inFlight fd hset := by
    rw [hpc'] at hset
    cases hset
  staged t th a hth hnot ha := by
    rw [hthreads] at hth
    rw [hjoined] at hnot
    exact h.staged t th a hth hnot ((hsame t th hth hnot).symm.trans ha)
  joins datap tmp a hjoin := by
    rw [hpc'] at hjoin
    cases hjoin
  leaving _ := by
    rw [Process.Leaving, hpc']
    exact hquit

/-- The set-up makes a thread, which will close the socket. -/
theorem Settles.creates (h : Settles taken s none) {es : List Entry}
    (hbooks : Books s.toRecords es) {clientFd : Fd} (hpc : s.pc = .setUp clientFd)
    {tData thread : Addr} {t : Tid} (hfree : s.args tData = none) (hnew : s.threads t = none)
    (hfds : s'.fds = s.fds)
    (hthreads : s'.threads = Function.update s.threads t (some (.start tData)))
    (hjoined : s'.joined = s.joined)
    (hargs : s'.args = Function.update s.args tData (some (.new (s.accepts - 1) clientFd)))
    (hpc' : s'.pc = .insert tData thread) : Settles taken s' none := by
  have hself : s'.threads t = some (.start tData) := by rw [hthreads, Function.update_self]
  have hself_args : s'.args tData = some (.new (s.accepts - 1) clientFd) := by
    rw [hargs, Function.update_self]
  have hold : ∀ u th, u ≠ t → s'.threads u = some th → s.threads u = some th := by
    intro u th hut hu
    rwa [hthreads, Function.update_of_ne hut] at hu
  have hkeep : ∀ u th, s.threads u = some th → s'.threads u = some th := by
    intro u th hu
    have hut : u ≠ t := by
      rintro rfl
      rw [hnew] at hu
      cases hu
    rw [hthreads, Function.update_of_ne hut, hu]
  have hsame : ∀ u th, s.threads u = some th → u ∉ s.joined →
      s'.args th.connectionData = s.args th.connectionData := fun u th hu hnot =>
    hargs ▸ hbooks.args_new hfree _ hu hnot
  have hhung : ∀ p, ¬ s'.Hung p := by
    rintro p ⟨datap, c, hwaits, -⟩
    rw [hpc'] at hwaits
    cases hwaits
  have hunjoined : t ∉ s.joined := by
    intro hmem
    obtain ⟨th, hth, -⟩ := hbooks.returned t hmem
    rw [hnew] at hth
    cases hth
  exact {
    kept := hfds ▸ h.kept
    charged := by
      intro fd d hfd
      rw [hfds] at hfd
      refine (h.charged fd d hfd).imp_right fun hcharged => ?_
      cases hcharged with
      | inFlight hset hd =>
        obtain rfl := MainPc.setUp.inj (hpc.symm.trans hset)
        exact .client ⟨hself, hjoined ▸ hunjoined, hself_args, rfl, hd, .inl rfl, hhung _⟩
      | lost hlost => cases hlost
      | output hth hout hleft hd => exact .output (hkeep _ _ hth) hout hleft hd
      | @client u th a howe =>
        have ha := (hsame u th howe.thread howe.unjoined).trans howe.args
        exact .client ⟨hkeep u th howe.thread, hjoined ▸ howe.unjoined, ha, howe.fd_eq,
          howe.desc_eq, howe.owes, hhung _⟩
    outputs := by
      intro u th fd hu hfd
      by_cases hut : u = t
      · obtain rfl := Option.some.inj (hself.symm.trans (hut ▸ hu))
        cases hfd
      · exact h.outputs u th fd (hold u th hut hu) hfd
    clients := by
      intro p a ha
      by_cases hp : p = tData
      · obtain rfl := Option.some.inj (hself_args.symm.trans (hp ▸ ha))
        exact h.inFlight clientFd hpc
      · rw [hargs, Function.update_of_ne hp] at ha
        exact h.clients p a ha
    inFlight := by
      intro fd hset
      rw [hpc'] at hset
      cases hset
    staged := by
      intro u th a hu hnot ha
      rw [hjoined] at hnot
      by_cases hut : u = t
      · obtain rfl := Option.some.inj (hself.symm.trans (hut ▸ hu))
        obtain rfl := Option.some.inj (hself_args.symm.trans ha)
        exact ⟨[], stage_start⟩
      · have hu' := hold u th hut hu
        exact h.staged u th a hu' hnot ((hsame u th hu' hnot).symm.trans ha)
    joins := by
      intro datap tmp a hjoin
      rw [hpc'] at hjoin
      cases hjoin
    leaving := fun hlost => absurd rfl hlost }

/-- A set-up hands the socket to a thread, or loses it. -/
theorem Settles.setUp (h : Settles taken s lost) {es : List Entry} (hbooks : Books s.toRecords es)
    {clientFd : Fd} {res : SetUp} (hpc : s.pc = .setUp clientFd)
    (hset : s.setUp clientFd res = some s') :
    ∃ lost', Settles taken s' lost' ∧ (lost' ≠ none ↔ (Turn.main (.setUp res)).Drops) := by
  obtain rfl := h.nothing_lost (by simp [Process.Leaving, hpc])
  have hnew : ∀ tData p a, Function.update s.args tData (some (.new (s.accepts - 1) clientFd)) p =
      some a → s.args p = some a ∨ a.clientFd = clientFd := by
    intro tData p a ha
    by_cases hp : p = tData
    · rw [hp, Function.update_self, Option.some.injEq] at ha
      exact .inr (ha ▸ rfl)
    · rw [Function.update_of_ne hp] at ha
      exact .inl ha
  have hdrops : (some clientFd ≠ none ↔ True) := by simp
  cases res with
  | noArgs =>
    cases hset
    exact ⟨some clientFd, h.drops hpc rfl rfl rfl rfl (fun _ _ => .inl) (fun _ _ _ _ => rfl) rfl
      rfl, hdrops⟩
  | noThread tData =>
    obtain ⟨m, hm, hset⟩ := Option.bind_eq_some_iff.mp hset
    obtain ⟨hfree, rfl⟩ := newArgs_eq_some hm
    cases hset
    exact ⟨some clientFd, h.drops hpc rfl rfl rfl rfl (hnew tData)
      (fun _ _ hth hnot => hbooks.args_new hfree _ hth hnot) rfl rfl, hdrops⟩
  | notCreated tData thread =>
    obtain ⟨m, hm, hset⟩ := Option.bind_eq_some_iff.mp hset
    obtain ⟨m₁, hm₁, hset⟩ := Option.bind_eq_some_iff.mp hset
    obtain ⟨hfree, rfl⟩ := newArgs_eq_some hm
    obtain ⟨-, rfl⟩ := newHandle_eq_some hm₁
    cases hset
    exact ⟨some clientFd, h.drops hpc rfl rfl rfl rfl (hnew tData)
      (fun _ _ hth hnot => hbooks.args_new hfree _ hth hnot) rfl rfl, hdrops⟩
  | created tData thread t =>
    obtain ⟨m, hm, hset⟩ := Option.bind_eq_some_iff.mp hset
    obtain ⟨m₁, hm₁, hset⟩ := Option.bind_eq_some_iff.mp hset
    obtain ⟨m₂, hm₂, hset⟩ := Option.bind_eq_some_iff.mp hset
    obtain ⟨hfree, rfl⟩ := newArgs_eq_some hm
    obtain ⟨-, rfl⟩ := newHandle_eq_some hm₁
    obtain ⟨hthread, rfl⟩ := create_eq_some hm₂
    cases hset
    exact ⟨none, h.creates hbooks hpc hfree hthread rfl rfl rfl rfl rfl,
      fun hlost => absurd rfl hlost, fun hdrop => hdrop.elim⟩

/-- Main accepts a connection. -/
theorem Settles.accepts (h : Settles taken s lost) {clientFd : Fd} (hpc : s.pc = .accept)
    (hfree : s.fds clientFd = none) :
    Settles taken { s with
      fds := Function.update s.fds clientFd (some (.client s.accepts))
      pc := .setUp clientFd, accepts := s.accepts + 1 } lost where
  kept := kept_update h.kept (h.not_taken hfree) _
  charged fd d hfd := by
    by_cases hn : fd = clientFd
    · subst hn
      have hd := (Function.update_self ..).symm.trans hfd
      exact .inr (.inFlight rfl (Option.some.inj hd).symm)
    · refine (h.charged fd d ((Function.update_of_ne hn ..).symm.trans hfd)).imp_right ?_
      intro hcharged
      cases hcharged with
      | inFlight hset hd =>
        rw [hpc] at hset
        cases hset
      | lost hlost =>
        rw [h.nothing_lost (by simp [Process.Leaving, hpc])] at hlost
        cases hlost
      | output hth hout hleft hd => exact .output hth hout hleft hd
      | client howe =>
        refine .client ⟨howe.thread, howe.unjoined, howe.args, howe.fd_eq, howe.desc_eq,
          howe.owes, ?_⟩
        rintro ⟨datap, c, hwaits, -⟩
        cases hwaits
  outputs := h.outputs
  clients := h.clients
  inFlight fd hset := MainPc.setUp.inj hset ▸ h.not_taken hfree
  staged := h.staged
  joins datap tmp a hjoin := by cases hjoin
  leaving hlost := absurd (h.nothing_lost (by simp [Process.Leaving, hpc])) hlost

/-- Main closes the socket of the thread that it joins next. -/
theorem Settles.closes (h : Settles taken s lost) {datap : Addr} {a : ConnectionThreadArgs}
    (hpc : s.pc = .shutdown) (hargs : s.connection datap = some a) :
    Settles taken
      { s.close .main (.client a.client) a.clientFd with pc := .shutdownJoin datap } lost where
  kept := by
    obtain ⟨c, hcell, ha⟩ := Option.bind_eq_some_iff.mp hargs
    exact kept_update h.kept (h.clients _ a ha) _
  charged fd d hfd := by
    have hn : fd ≠ a.clientFd := by
      rintro rfl
      cases (Function.update_self ..).symm.trans hfd
    refine (h.charged fd d ((Function.update_of_ne hn ..).symm.trans hfd)).imp_right ?_
    intro hcharged
    cases hcharged with
    | inFlight hset hd =>
      rw [hpc] at hset
      cases hset
    | lost hlost hd => exact .lost hlost hd
    | output hth hout hleft hd => exact .output hth hout hleft hd
    | @client t th b howe =>
      refine .client ⟨howe.thread, howe.unjoined, howe.args, howe.fd_eq, howe.desc_eq,
        howe.owes, ?_⟩
      -- the socket that is closed is that of the thread which main waits for
      rintro ⟨datap', c, hwaits, hcell, hconn⟩
      obtain rfl := MainPc.shutdownJoin.inj hwaits
      obtain ⟨c', hcell', ha⟩ := Option.bind_eq_some_iff.mp hargs
      obtain rfl := Option.some.inj (hcell.symm.trans hcell')
      obtain rfl := Option.some.inj (howe.args.symm.trans (hconn ▸ ha))
      exact hn howe.fd_eq.symm
  outputs := h.outputs
  clients := h.clients
  inFlight fd hset := by cases hset
  staged := h.staged
  joins datap tmp a hjoin := by cases hjoin
  leaving _ := trivial

/-- The thread of a node is joined: it has closed its socket, or main has. -/
theorem Settles.joined (h : Settles taken s lost) {done rest : List (Addr × Entry)} {datap : Addr}
    {e : Entry} (hbooks : Books s.toRecords ((done ++ (datap, e) :: rest).map Prod.snd))
    (hholds : s.slist.Holds ((done ++ (datap, e) :: rest).map nodeOf))
    (hjoin : s.join datap = some s'.toRecords)
    (hpaid : ∀ a, s.connection datap = some a → a.threadComplete = true ∨ s.Hung e.connection)
    (hfds : s'.fds = s.fds) (haccepts : s'.accepts = s.accepts)
    (hpc : ∀ fd, s.pc ≠ .setUp fd) (hpc' : ∀ fd, s'.pc ≠ .setUp fd)
    (hhung : ∀ datap, s'.pc ≠ .shutdownJoin datap) (hnot : ∀ datap tmp, s'.pc ≠ .join datap tmp)
    (hleaving : s.Leaving → s'.Leaving) : Settles taken s' lost := by
  have hlive := hbooks.live e (by simp)
  obtain ⟨th, hth, hret, heq⟩ := join_eq_some hholds hlive hjoin
  obtain ⟨-, -, th', hth', hconn⟩ := hlive
  obtain rfl := Option.some.inj (hth.symm.trans hth')
  have hjoined : s'.joined = s.joined ++ [e.worker] := by rw [heq]
  have hargs : s'.args = s.args := by rw [heq]
  refine h.congr hfds haccepts (by rw [heq]) (fun t hmem => ?_) (fun p a ha => hargs ▸ ha)
    (fun t fd d thu a howe => ⟨?_, hargs ▸ howe.args⟩) hpc hpc' hhung
    (fun datap tmp _ hpc => absurd hpc (hnot datap tmp)) hleaving
  · rw [hjoined, List.mem_append, not_or] at hmem
    exact hmem.1
  · rw [hjoined, List.mem_append, List.mem_singleton, not_or]
    refine ⟨howe.unjoined, ?_⟩
    rintro rfl
    obtain rfl := Option.some.inj (hth.symm.trans howe.thread)
    have hnode : s.connection datap = some a := by
      refine Option.bind_eq_some_iff.mpr ⟨_, cell_of_listed hholds, ?_⟩
      rw [← howe.args, hconn]
      rfl
    rcases hpaid a hnode with hcomplete | hwaits
    · have hreturned : (th.control a).Returned := hret
      exact not_owes hreturned hcomplete howe.owes
    · exact howe.notHung (hconn ▸ hwaits)

/-- The arguments of a joined thread are given back. -/
theorem Settles.reaped (h : Settles taken s lost) {done rest : List (Addr × Entry)} {datap : Addr}
    {e : Entry} (hbooks : Books s.toRecords ((done ++ (datap, e) :: rest).map Prod.snd))
    (hholds : s.slist.Holds ((done ++ (datap, e) :: rest).map nodeOf))
    (hjoined : e.worker ∈ s.joined)
    {unlink : SList Addr SlistData → Option (SList Addr SlistData)}
    (hreap : s.reap datap unlink = some s'.toRecords)
    (hfds : s'.fds = s.fds) (haccepts : s'.accepts = s.accepts)
    (hpc : ∀ fd, s.pc ≠ .setUp fd) (hpc' : ∀ fd, s'.pc ≠ .setUp fd)
    (hhung : ∀ datap, s'.pc ≠ .shutdownJoin datap) (hnot : ∀ datap tmp, s'.pc ≠ .join datap tmp)
    (hleaving : s.Leaving → s'.Leaving) : Settles taken s' lost := by
  obtain ⟨l, -, heq⟩ := reap_eq_some hholds hreap
  have hargs : s'.args = Function.update s.args e.connection none := by rw [heq]
  have hsame : s'.joined = s.joined := by rw [heq]
  refine h.congr hfds haccepts (by rw [heq]) (fun t hmem => hsame ▸ hmem) (fun p a ha => ?_)
    (fun t fd d th a howe => ⟨hsame ▸ howe.unjoined, ?_⟩) hpc hpc' hhung
    (fun datap tmp _ hpc => absurd hpc (hnot datap tmp)) hleaving
  · by_cases hp : p = e.connection
    · rw [hargs, hp, Function.update_self] at ha
      cases ha
    · rwa [hargs, Function.update_of_ne hp] at ha
  · have hne := hbooks.data_ne (by simp) hjoined howe.thread howe.unjoined
    rw [hargs, Function.update_of_ne hne, howe.args]

/-- Every step of main. -/
theorem Settles.mainStep (h : Settles taken s lost) (hkeeps : Keeps s pending listed)
    {ans : Answer} (hact : MainActs s ans s') :
    ∃ lost', Settles taken s' lost' ∧ (lost' ≠ none ↔ lost ≠ none ∨ (Turn.main ans).Drops) := by
  have hbooks := hkeeps.books
  have hholds := hkeeps.holds
  have hplace := hkeeps.place
  unfold Place at hplace
  have hsame : Settles taken s' lost → ¬ (Turn.main ans).Drops →
      ∃ lost', Settles taken s' lost' ∧ (lost' ≠ none ↔ lost ≠ none ∨ (Turn.main ans).Drops) :=
    fun hset hno => ⟨lost, hset, .inl, fun hor => hor.resolve_right hno⟩
  cases hact with
  | quits hpc hquit =>
    exact hsame (h.moves rfl rfl rfl rfl rfl (by simp [hpc]) (by simp) (by simp) (by simp)
      fun _ => trivial) id
  | passStarts hpc hquit =>
    refine hsame (h.moves rfl rfl rfl rfl rfl (by simp [hpc]) (by simp) (by simp) (by simp)
      fun hleaving => ?_) id
    rw [Process.Leaving, hpc] at hleaving
    rw [hquit] at hleaving
    cases hleaving
  | passEnds hpc =>
    exact hsame (h.moves rfl rfl rfl rfl rfl (by simp [hpc]) (by simp) (by simp) (by simp)
      (by simp [Process.Leaving, hpc])) id
  | @sees datap cell a hpc hcell hargs hcomplete =>
    refine hsame (h.moves rfl rfl rfl rfl rfl (by simp [hpc]) (by simp) (by simp) ?_
      (by simp [Process.Leaving, hpc])) id
    intro datap' tmp b hjoin hb
    obtain ⟨rfl, -⟩ := MainPc.join.inj hjoin
    obtain rfl := Option.some.inj (hargs.symm.trans hb)
    exact hcomplete
  | keeps hpc hcell hargs hcomplete =>
    exact hsame (h.moves rfl rfl rfl rfl rfl (by simp [hpc]) (by simp) (by simp) (by simp)
      (by simp [Process.Leaving, hpc])) id
  | joins hpc hjoin =>
    rw [hpc] at hplace
    obtain ⟨rfl, -, done, e, rest, rfl, -⟩ := hplace
    exact hsame (h.joined hbooks hholds hjoin (fun a ha => .inl (h.joins _ _ a hpc ha)) rfl rfl
      (by simp [hpc]) (by simp) (by simp) (by simp) (by simp [Process.Leaving, hpc])) id
  | reaps hpc hreap =>
    rw [hpc] at hplace
    obtain ⟨rfl, done, e, rest, rfl, -, -, hjoined, -⟩ := hplace
    exact hsame (h.reaped hbooks hholds hjoined hreap rfl rfl (by simp [hpc]) (by simp) (by simp)
      (by simp) (by simp [Process.Leaving, hpc])) id
  | acceptFails hpc =>
    exact hsame (h.moves rfl rfl rfl rfl rfl (by simp [hpc]) (by simp) (by simp) (by simp)
      (by simp [Process.Leaving, hpc])) id
  | accepts hpc hfree => exact hsame (h.accepts hpc hfree) id
  | setsUp hpc hset =>
    obtain ⟨lost', hset', hiff⟩ := h.setUp hbooks hpc hset
    have hnone := h.nothing_lost (by simp [Process.Leaving, hpc])
    exact ⟨lost', hset', hiff.trans ⟨.inr, fun hor => hor.resolve_left fun hlost => hlost hnone⟩⟩
  | inserts hpc hinsert =>
    refine hsame (h.moves rfl rfl rfl rfl rfl (by simp [hpc]) (by simp) (by simp) (by simp) ?_) id
    intro hleaving
    rw [Process.Leaving, hpc] at hleaving
    exact hleaving.elim
  | empties hpc hempty =>
    exact hsame (h.moves rfl rfl rfl rfl rfl (by simp [hpc]) (by simp) (by simp) (by simp)
      fun _ => trivial) id
  | closes hpc hfirst hargs => exact hsame (h.closes hpc hargs) id
  | @shutdownJoins datap m hpc hjoin =>
    rw [hpc] at hplace
    obtain ⟨rfl, -, e, rest, rfl⟩ := hplace
    have hsplit : Books s.toRecords (([] ++ (datap, e) :: rest).map Prod.snd) := hbooks
    have hnodes : s.slist.Holds (([] ++ (datap, e) :: rest).map nodeOf) := hholds
    exact hsame (h.joined hsplit hnodes hjoin
      (fun a _ => .inr ⟨datap, _, hpc, cell_of_listed hnodes, rfl⟩) rfl rfl
      (by simp [hpc]) (by simp) (by simp) (by simp) fun _ => trivial) id
  | @shutdownReaps datap m hpc hreap =>
    rw [hpc] at hplace
    obtain ⟨rfl, e, rest, rfl, hjoined, -⟩ := hplace
    have hsplit : Books s.toRecords (([] ++ (datap, e) :: rest).map Prod.snd) := hbooks
    have hnodes : s.slist.Holds (([] ++ (datap, e) :: rest).map nodeOf) := hholds
    exact hsame (h.reaped hsplit hnodes hjoined hreap rfl rfl (by simp [hpc]) (by simp) (by simp)
      (by simp) fun _ => trivial) id
  | destroys hpc =>
    exact hsame (h.moves rfl rfl rfl rfl rfl (by simp [hpc]) (by simp) (by simp) (by simp)
      fun _ => trivial) id

end Step

/-! ## Runs -/

/-- The descriptors behind some steps: a socket is lost if one of them was a set-up that failed. -/
def SettlesAfter (taken : Fd → Bool) (turns : List Turn) (s : Process) : Prop :=
  Sound s ∧ ∃ lost, Settles taken s lost ∧ (lost ≠ none ↔ ∃ turn ∈ turns, turn.Drops)

theorem SettlesAfter.step {taken : Fd → Bool} {turns : List Turn} {s s' : Process} {turn : Turn}
    {u : Unit} (h : SettlesAfter taken turns s) (hstep : s.step turn = some (u, s')) :
    SettlesAfter taken (turns ++ [turn]) s' := by
  obtain ⟨hsound, lost, h, hiff⟩ := h
  refine ⟨hsound.step hstep, ?_⟩
  have hmore : (∃ turn' ∈ turns ++ [turn], turn'.Drops) ↔
      (∃ turn' ∈ turns, turn'.Drops) ∨ turn.Drops := by
    simp [or_and_right, exists_or]
  rw [hmore, ← hiff]
  obtain ⟨⟨pending, listed, hkeeps⟩, -⟩ := hsound
  cases step_cases hstep with
  | main hact => exact h.mainStep hkeeps hact
  | thread hthread =>
    exact ⟨lost, h.threadStep hkeeps.books hthread, .inl, fun hor => hor.resolve_right id⟩
  | signal =>
    refine ⟨lost, ?_, .inl, fun hor => hor.resolve_right id⟩
    exact {
      kept := h.kept
      charged := fun fd d hfd => (h.charged fd d hfd).imp_right fun hcharged => by
        cases hcharged with
        | inFlight hpc hd => exact .inFlight hpc hd
        | lost hlost hd => exact .lost hlost hd
        | output hth hout hleft hd => exact .output hth hout hleft hd
        | client howe =>
          exact .client ⟨howe.thread, howe.unjoined, howe.args, howe.fd_eq, howe.desc_eq,
            howe.owes, howe.notHung⟩
      outputs := h.outputs
      clients := h.clients
      inFlight := h.inFlight
      staged := h.staged
      joins := h.joins
      leaving := fun hlost => (h.leaving hlost).signal }

theorem run_settles {taken : Fd → Bool} {turns : List Turn} {us : List Unit} {s : Process}
    (hrun : run Process.step (.start taken) turns = some (us, s)) : SettlesAfter taken turns s := by
  have hstart : SettlesAfter taken [] (.start taken) :=
    ⟨sound_start taken, none, settles_start taken, by simp⟩
  have hinv : SettlesAfter taken ([] ++ turns) s :=
    @run_inv_trace _ _ _ _ (fun turns _ s => SettlesAfter taken turns s)
      (fun _ _ _ _ _ _ h hstep => h.step hstep) _ _ [] _ [] _ hstart hrun
  exact hinv

/-- Whatever fails, and whoever closes a number that is not his any more: a number that was open
    before `run_server` is never closed.  When `run_server` has returned every other one is
    free, but for the socket of the last connection if a set-up has failed. -/
theorem run_server_closes {taken : Fd → Bool} {turns : List Turn} {us : List Unit} {s : Process}
    (hrun : run Process.step (.start taken) turns = some (us, s)) :
    (∀ fd, taken fd = true → s.fds fd = some .other) ∧
      (s.Returned → ∀ fd d, taken fd = false → s.fds fd = some d →
        d = .client (s.accepts - 1) ∧ ∃ turn ∈ turns, turn.Drops) ∧
      (s.Returned → ∀ fd fd', taken fd = false → taken fd' = false → s.fds fd ≠ none →
        s.fds fd' ≠ none → fd = fd') := by
  obtain ⟨hsound, lost, h, hiff⟩ := run_settles hrun
  have hlost : s.Returned → ∀ fd d, taken fd = false → s.fds fd = some d →
      lost = some fd ∧ d = .client (s.accepts - 1) := by
    intro hret fd d hfree hfd
    cases (h.charged fd d hfd).resolve_left (by simp [hfree]) with
    | inFlight hpc hd =>
      rw [show s.pc = .returned from hret] at hpc
      cases hpc
    | lost heq hd => exact ⟨heq, hd⟩
    | output hth hout hleft hd =>
      rw [show _ = Pc.exit [] from hsound.all_returned (.inr hret) hth] at hleft
      cases hleft
    | @client t th a howe =>
      -- everybody has been joined
      obtain ⟨pending, listed, hkeeps⟩ := hsound.keeps
      have hcreated := hkeeps.books.mem_created t th howe.thread
      exact absurd ((hsound.bookkeeping.joined_all hret t).mp hcreated) howe.unjoined
  refine ⟨h.kept, fun hret fd d hfree hfd => ?_, fun hret fd fd' hfree hfree' hfd hfd' => ?_⟩
  · obtain ⟨heq, hd⟩ := hlost hret fd d hfree hfd
    exact ⟨hd, hiff.mp (by simp [heq])⟩
  · obtain ⟨d, hd⟩ := Option.ne_none_iff_exists'.mp hfd
    obtain ⟨d', hd'⟩ := Option.ne_none_iff_exists'.mp hfd'
    exact Option.some.inj ((hlost hret fd d hfree hd).1.symm.trans (hlost hret fd' d' hfree' hd').1)

/-- Thread 1 is gone, and its number 5 is the device's of thread 0, when main closes it again;
    and the set-up of a third connection, on 7, has failed. -/
def closedForAnother : List Turn :=
  newConnection 0 4 100 200 0 300 ++ newConnection 1 5 101 201 1 301 ++
    List.replicate 4 (.main .go) ++ hangsUp 1 6 ++
    [.thread 0 .go 0, .thread 0 .go 0, .thread 0 (.opened true) 5, .main (.accepted (some 7)),
      .main (.setUp .noArgs)] ++
    List.replicate 5 (.main .go) ++ [.thread 0 (.received .closed none) 0] ++
    List.replicate 5 (.thread 0 .go 0) ++ List.replicate 4 (.main .go)

theorem closedForAnother_closes :
    ∃ us s, run Process.step (.start fun fd => decide (fd < 4)) closedForAnother = some (us, s) ∧
      s.Returned ∧ ⟨.main, .client 1, some (.output 0)⟩ ∈ s.closes ∧
      s.fds 7 = some (.client 2) ∧ (∀ fd < 4, s.fds fd = some .other) ∧
      ∀ fd, 4 ≤ fd → s.fds fd ≠ none → fd = 7 := by
  have hend : (run Process.step (.start fun fd => decide (fd < 4)) closedForAnother).map
      (fun r => (r.2.pc, r.2.fds 7, r.2.closes.drop 2)) = some (.returned, some (.client 2),
        [⟨.main, .client 1, some (.output 0)⟩, ⟨.main, .client 0, some (.client 0)⟩,
          ⟨.thread 0, .client 0, none⟩, ⟨.thread 0, .output 0, none⟩]) := rfl
  obtain ⟨⟨us, s⟩, hrun, heq⟩ := Option.map_eq_some_iff.mp hend
  obtain ⟨hret, heq⟩ := Prod.mk.inj heq
  obtain ⟨hlost, hcloses⟩ := Prod.mk.inj heq
  obtain ⟨hkept, -, hone⟩ := run_server_closes hrun
  have hclose : ⟨.main, .client 1, some (.output 0)⟩ ∈ s.closes := by
    apply List.mem_of_mem_drop (i := 2)
    rw [show s.closes.drop 2 = _ from hcloses]
    exact List.mem_cons_self
  refine ⟨us, s, hrun, hret, hclose, hlost, fun fd hfd => hkept fd (decide_eq_true hfd), ?_⟩
  intro fd hfd hopen
  refine hone hret fd 7 (decide_eq_false (Nat.not_lt.mpr hfd)) rfl hopen ?_
  rw [show s.fds 7 = _ from hlost]
  exact Option.some_ne_none _

end Aesd.Server
