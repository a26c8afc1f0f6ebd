/-
  Aesd.Server.Exclusion

  `file_mutex` in the whole process, with main, the threads and the signal in
  any order and any call failing: it is locked exactly while one thread is
  between its `lock_mutex` and its `unlock_mutex`, and destroyed exactly when
  `run_server` has returned (`run_server_excludes`).  And nothing is ever
  stuck: a thread can go on or somebody else has the mutex, who can; and main
  can go on or joins a thread (`run_server_never_stuck`).
-/
import Aesd.Server.Sockets

namespace Aesd.Server

open Aesd.Lib

/-! ## The actions and the mutex -/

/-- What the action of a thread leaves to unlock. -/
inductive Unlocks (pc pc' : Pc) : Action → Prop where
  | locks (hbefore : toUnlock pc = 0) (hafter : toUnlock pc' = 1) : Unlocks pc pc' .lock
  | unlocks (h : toUnlock pc = toUnlock pc' + 1) : Unlocks pc pc' .unlock
  | other {act : Action} (hlock : act ≠ .lock) (hunlock : act ≠ .unlock)
    (h : toUnlock pc' = toUnlock pc) : Unlocks pc pc' act

theorem toUnlock_onRecv (next : RecvNext) : toUnlock (onRecv next) = 1 := by
  cases next with
  | ret ret => exact toUnlock_afterPass (some ret)
  | ioctl seekto size => rfl
  | write bytes size => rfl

theorem step_unlocks {c c' : Control} {o : Outcome} {act : Action}
    (hstep : c.step o = some (act, c')) : Unlocks c.pc c'.pc act := by
  cases control_cases hstep with
  | locks hpc =>
    rw [hpc]
    exact .locks rfl rfl
  | begins hpc | opens hpc | openFails hpc =>
    rw [hpc]
    exact .other (by simp) (by simp) rfl
  | receives hpc =>
    rw [hpc]
    exact .other (by simp) (by simp) (toUnlock_onRecv _)
  | seeks hpc | writes hpc =>
    rw [hpc]
    exact .other (by simp) (by simp) (toUnlock_afterPass _)
  | reads hpc =>
    rw [hpc]
    exact .other (by simp) (by simp) (toUnlock_onRead _)
  | sends hpc =>
    rw [hpc]
    exact .other (by simp) (by simp) (toUnlock_onSend ..)
  | @leaves op todo hpc =>
    rw [hpc, exit_pc]
    cases op with
    | unlock => exact .unlocks (List.count_cons_self ..)
    | closeClient =>
      exact .other (by simp [ExitOp.action]) (by simp [ExitOp.action]) (by simp [toUnlock])
    | setSuccess success =>
      exact .other (by simp [ExitOp.action]) (by simp [ExitOp.action]) (by simp [toUnlock])
    | setComplete =>
      exact .other (by simp [ExitOp.action]) (by simp [ExitOp.action]) (by simp [toUnlock])
    | closeOutput =>
      exact .other (by simp [ExitOp.action]) (by simp [ExitOp.action]) (by simp [toUnlock])

theorem eq_of_openFails {c c' : Control} {act : Action}
    (hstep : c.step (.opened false) = some (act, c')) :
    act = .open false ∧ c'.pc = openFailed := by
  cases control_cases hstep with
  | openFails hpc => exact ⟨rfl, rfl⟩

/-- A thread that has still to close the device knows its descriptor. -/
def Thread.Opened (th : Thread) : Prop :=
  toCloseOutput th.pc ≤ 1 ∧ (toCloseOutput th.pc = 1 → th.outputFd ≠ none)

theorem opened_after {th : Thread} {a : ConnectionThreadArgs} {o : Outcome} {act : Action}
    {c : Control} (fd : Fd) (h : th.Opened) (hstep : (th.control a).step o = some (act, c)) :
    (th.after c fd act).Opened := by
  obtain ⟨hle, hopen⟩ := h
  have hsame : act ≠ .open true → (th.after c fd act).outputFd = th.outputFd := fun hact =>
    if_neg hact
  by_cases ho : o = .opened false
  · -- there is nothing to close
    rw [ho] at hstep
    have hpc : (th.after c fd act).pc = openFailed := (eq_of_openFails hstep).2
    rw [Thread.Opened, hpc]
    exact ⟨Nat.zero_le _, fun habs => by cases habs⟩
  · show toCloseOutput c.pc ≤ 1 ∧ (toCloseOutput c.pc = 1 → _)
    have hpc : (th.control a).pc = th.pc := rfl
    cases step_leaves ho hstep with
    | opens hclose hbefore hafter =>
      refine ⟨Nat.le_of_eq hafter, fun _ => ?_⟩
      have hfd : (th.after c fd (.open true)).outputFd = some fd := by rw [Thread.after, if_pos rfl]
      rw [hfd]
      exact Option.some_ne_none fd
    | closesOutput hclose houtput =>
      rw [hpc] at houtput
      exact ⟨by omega, fun habs => by omega⟩
    | closesClient hclose houtput =>
      rw [houtput, hpc, hsame nofun]
      exact ⟨hle, hopen⟩
    | other hopens hout hclient hclose houtput =>
      rw [houtput, hpc, hsame hopens]
      exact ⟨hle, hopen⟩

/-! ## The mutex and the threads -/

/-- Thread `t` is between its `lock_mutex` and its `unlock_mutex`. -/
def Process.Inside (s : Process) (t : Tid) : Prop :=
  ∃ th, s.threads t = some th ∧ toUnlock th.pc = 1

structure Exclusive (s : Process) : Prop where
  once : ∀ t th, s.threads t = some th → toUnlock th.pc ≤ 1
  opened : ∀ t th, s.threads t = some th → th.Opened
  locked : ∀ t, s.Inside t → s.fileMutex = .locked
  unique : ∀ t u, s.Inside t → s.Inside u → t = u
  held : s.fileMutex = .locked → ∃ t, s.Inside t
  destroyed : s.Returned → s.fileMutex = .destroyed

theorem exclusive_start (taken : Fd → Bool) : Exclusive (.start taken) where
  once t th h := by cases h
  opened t th h := by cases h
  locked t h := by
    obtain ⟨th, hth, -⟩ := h
    cases hth
  unique t u h := by
    obtain ⟨th, hth, -⟩ := h
    cases hth
  held h := by cases h
  destroyed h := by cases h

section Step

variable {s s' : Process} {t : Tid}

/-- The other threads are where they were. -/
theorem inside_of_ne {th' : Thread} (h : s'.threads = Function.update s.threads t (some th'))
    {u : Tid} (hne : u ≠ t) : s'.Inside u ↔ s.Inside u := by
  rw [Process.Inside, Process.Inside, h, Function.update_of_ne hne]

theorem inside_self {th : Thread} (h : s.threads t = some th) :
    s.Inside t ↔ toUnlock th.pc = 1 := by
  refine ⟨?_, fun hin => ⟨th, h, hin⟩⟩
  rintro ⟨th', hth', hin⟩
  obtain rfl := Option.some.inj (h.symm.trans hth')
  exact hin

/-- What an action does to the mutex. -/
theorem perform_mutex {s₁ : Process} {th : Thread} {a : ConnectionThreadArgs} {fd : Fd}
    {act : Action} (h : s.perform t th a fd act = some s₁) :
    s₁.pc = s.pc ∧ (act = .lock → s.fileMutex = .unlocked ∧ s₁.fileMutex = .locked) ∧
      (act = .unlock → s.fileMutex ≠ .destroyed ∧ s₁.fileMutex = .unlocked) ∧
      (act ≠ .lock → act ≠ .unlock → s₁.fileMutex = s.fileMutex) := by
  unfold Process.perform at h
  split at h
  case h_1 =>
    split at h
    case h_1 hfree => cases h; exact ⟨rfl, fun _ => ⟨hfree, rfl⟩, nofun, fun hne => absurd rfl hne⟩
    case h_2 => cases h
  case h_2 =>
    split at h
    case h_1 => cases h
    case h_2 hleft =>
      cases h
      exact ⟨rfl, nofun, fun _ => ⟨hleft, rfl⟩, fun _ hne => absurd rfl hne⟩
  case h_3 =>
    obtain ⟨-, rfl⟩ := openFd_eq_some h
    exact ⟨rfl, nofun, nofun, fun _ _ => rfl⟩
  case h_4 =>
    obtain ⟨n, -, rfl⟩ := Option.map_eq_some_iff.mp h
    exact ⟨rfl, nofun, nofun, fun _ _ => rfl⟩
  case h_5 => cases h; exact ⟨rfl, nofun, nofun, fun _ _ => rfl⟩
  case h_6 hlock hunlock _ _ _ =>
    cases h
    exact ⟨rfl, fun heq => absurd heq hlock, fun heq => absurd heq hunlock, fun _ _ => rfl⟩

/-- A step of a thread. -/
theorem Exclusive.threadStep (h : Exclusive s) {o : Outcome} {fd : Fd}
    (hstep : s.threadStep t o fd = some s') : Exclusive s' := by
  obtain ⟨th, a, act, c, s₁, hth, -, hc, hperform, hs'⟩ := threadStep_eq_some hstep
  have hthreads : s'.threads = Function.update s.threads t (some (th.after c fd act)) := by
    rw [hs']
    rfl
  have hmutex : s'.fileMutex = s₁.fileMutex := by rw [hs']
  have hpc : s'.pc = s₁.pc := by rw [hs']
  obtain ⟨hsame, hlock, hunlock, hkeep⟩ := perform_mutex hperform
  have hothers : ∀ u, u ≠ t → (s'.Inside u ↔ s.Inside u) := fun u hne => inside_of_ne hthreads hne
  have hbefore : s.Inside t ↔ toUnlock th.pc = 1 := inside_self hth
  have hself : s'.threads t = some (th.after c fd act) := by rw [hthreads, Function.update_self]
  have hafter : s'.Inside t ↔ toUnlock c.pc = 1 := inside_self hself
  have hreturned : s'.Returned → s.fileMutex = .destroyed := fun hret =>
    h.destroyed (hsame.symm.trans (hpc.symm.trans hret))
  have hcases : ∀ {P : Thread → Prop}, (∀ u th₁, s.threads u = some th₁ → P th₁) →
      P (th.after c fd act) → ∀ u th₁, s'.threads u = some th₁ → P th₁ := by
    intro P hall hnew u th₁ hu
    rw [hthreads] at hu
    by_cases heq : u = t
    · rw [heq, Function.update_self] at hu
      exact Option.some.inj hu ▸ hnew
    · rw [Function.update_of_ne heq] at hu
      exact hall u th₁ hu
  have honce := h.once t th hth
  have hopened := hcases h.opened (opened_after fd (h.opened t th hth) hc)
  cases step_unlocks hc with
  | locks hout hin =>
    obtain ⟨hfree, hlocked⟩ := hlock rfl
    have hnobody : ∀ u, ¬ s.Inside u := fun u hu => by
      rw [h.locked u hu] at hfree
      cases hfree
    have hself : ∀ u, s'.Inside u → u = t := fun u hu => by
      by_contra hne
      exact hnobody u ((hothers u hne).mp hu)
    exact {
      once := hcases h.once (Nat.le_of_eq hin)
      opened := hopened
      locked := fun _ _ => hmutex.trans hlocked
      unique := fun u v hu hv => (hself u hu).trans (hself v hv).symm
      held := fun _ => ⟨t, hafter.mpr hin⟩
      destroyed := fun hret => by
        rw [hreturned hret] at hfree
        cases hfree }
  | unlocks hdown =>
    have hdown' : toUnlock th.pc = toUnlock c.pc + 1 := hdown
    have hin : toUnlock th.pc = 1 := by omega
    have hout : toUnlock c.pc = 0 := by omega
    obtain ⟨hleft, hunlocked⟩ := hunlock rfl
    have hnobody : ∀ u, ¬ s'.Inside u := fun u hu => by
      by_cases heq : u = t
      · rw [heq, hafter, hout] at hu
        cases hu
      · exact heq (h.unique u t ((hothers u heq).mp hu) (hbefore.mpr hin))
    exact {
      once := hcases h.once (by rw [show (th.after c fd .unlock).pc = c.pc from rfl]; omega)
      opened := hopened
      locked := fun u hu => absurd hu (hnobody u)
      unique := fun u _ hu => absurd hu (hnobody u)
      held := fun hlocked => by
        rw [hmutex, hunlocked] at hlocked
        cases hlocked
      destroyed := fun hret => absurd (hreturned hret) hleft }
  | other hnotLock hnotUnlock heq =>
    have hpcs : toUnlock c.pc = toUnlock th.pc := heq
    have hinside : ∀ u, s'.Inside u ↔ s.Inside u := fun u => by
      by_cases hut : u = t
      · rw [hut, hafter, hbefore, hpcs]
      · exact hothers u hut
    have hmutex' : s'.fileMutex = s.fileMutex := hmutex.trans (hkeep hnotLock hnotUnlock)
    exact {
      once := hcases h.once (hpcs.le.trans honce)
      opened := hopened
      locked := fun u hu => hmutex'.trans (h.locked u ((hinside u).mp hu))
      unique := fun u v hu hv => h.unique u v ((hinside u).mp hu) ((hinside v).mp hv)
      held := fun hlocked => by
        obtain ⟨u, hu⟩ := h.held (hmutex'.symm.trans hlocked)
        exact ⟨u, (hinside u).mpr hu⟩
      destroyed := fun hret => hmutex'.trans (hreturned hret) }

/-- The threads are left alone by main, but for the one that it creates. -/
inductive Creates (s s' : Process) : Prop where
  | none (h : s'.threads = s.threads)
  | one {t : Tid} {tData : Addr} (hfree : s.threads t = none)
    (h : s'.threads = Function.update s.threads t (some (.start tData)))

theorem setUp_creates {clientFd : Fd} {res : SetUp} (h : s.setUp clientFd res = some s') :
    Creates s s' := by
  cases res with
  | noArgs =>
    cases h
    exact .none rfl
  | noThread tData =>
    obtain ⟨m, hargs, h⟩ := Option.bind_eq_some_iff.mp h
    obtain ⟨-, rfl⟩ := newArgs_eq_some hargs
    cases h
    exact .none rfl
  | notCreated tData thread =>
    obtain ⟨m, hargs, h⟩ := Option.bind_eq_some_iff.mp h
    obtain ⟨m₁, hhandle, h⟩ := Option.bind_eq_some_iff.mp h
    obtain ⟨-, rfl⟩ := newArgs_eq_some hargs
    obtain ⟨-, rfl⟩ := newHandle_eq_some hhandle
    cases h
    exact .none rfl
  | created tData thread t =>
    obtain ⟨m, hargs, h⟩ := Option.bind_eq_some_iff.mp h
    obtain ⟨m₁, hhandle, h⟩ := Option.bind_eq_some_iff.mp h
    obtain ⟨m₂, hcreate, h⟩ := Option.bind_eq_some_iff.mp h
    obtain ⟨-, rfl⟩ := newArgs_eq_some hargs
    obtain ⟨-, rfl⟩ := newHandle_eq_some hhandle
    obtain ⟨hfree, rfl⟩ := create_eq_some hcreate
    cases h
    exact .one hfree rfl

/-- A join changes nothing but the history of joins. -/
theorem join_frame {m m' : Records} {datap : Addr} (h : m.join datap = some m') :
    ∃ joined, m' = { m with joined := joined } := by
  obtain ⟨c, -, h⟩ := Option.bind_eq_some_iff.mp h
  obtain ⟨handle, -, h⟩ := Option.bind_eq_some_iff.mp h
  obtain ⟨t, -, h⟩ := Option.bind_eq_some_iff.mp h
  obtain ⟨th, -, h⟩ := Option.bind_eq_some_iff.mp h
  split at h
  · cases h
    exact ⟨_, rfl⟩
  · cases h

/-- And the records of a thread are given back without a look at the threads. -/
theorem reap_frame {m m' : Records} {datap : Addr}
    {unlink : SList Addr SlistData → Option (SList Addr SlistData)}
    (h : m.reap datap unlink = some m') :
    ∃ handles args slist, m' = { m with handles := handles, args := args, slist := slist } := by
  obtain ⟨c, -, h⟩ := Option.bind_eq_some_iff.mp h
  obtain ⟨handle, -, h⟩ := Option.bind_eq_some_iff.mp h
  obtain ⟨a, -, h⟩ := Option.bind_eq_some_iff.mp h
  obtain ⟨l, -, h⟩ := Option.bind_eq_some_iff.mp h
  cases h
  exact ⟨_, _, _, rfl⟩

theorem MainActs.creates {ans : Answer} (h : MainActs s ans s') : Creates s s' := by
  cases h with
  | setsUp hpc hset => exact setUp_creates hset
  | joins hpc hjoin =>
    obtain ⟨joined, rfl⟩ := join_frame hjoin
    exact .none rfl
  | reaps hpc hreap =>
    obtain ⟨handles, args, slist, rfl⟩ := reap_frame hreap
    exact .none rfl
  | shutdownJoins hpc hjoin =>
    obtain ⟨joined, rfl⟩ := join_frame hjoin
    exact .none rfl
  | shutdownReaps hpc hreap =>
    obtain ⟨handles, args, slist, rfl⟩ := reap_frame hreap
    exact .none rfl
  | quits hpc hquit => exact .none rfl
  | passStarts hpc hquit => exact .none rfl
  | passEnds hpc => exact .none rfl
  | sees hpc hcell hargs hcomplete => exact .none rfl
  | keeps hpc hcell hargs hcomplete => exact .none rfl
  | acceptFails hpc => exact .none rfl
  | accepts hpc hfree => exact .none rfl
  | inserts hpc hinsert => exact .none rfl
  | empties hpc hempty => exact .none rfl
  | closes hpc hfirst hargs => exact .none rfl
  | destroys hpc => exact .none rfl

theorem setUp_pc {clientFd : Fd} {res : SetUp} (h : s.setUp clientFd res = some s') :
    s'.pc = .loop ∨ ∃ tData thread, s'.pc = .insert tData thread := by
  cases res with
  | noArgs =>
    cases h
    exact .inl rfl
  | noThread tData =>
    obtain ⟨m, -, h⟩ := Option.bind_eq_some_iff.mp h
    cases h
    exact .inl rfl
  | notCreated tData thread =>
    obtain ⟨m, -, h⟩ := Option.bind_eq_some_iff.mp h
    obtain ⟨m₁, -, h⟩ := Option.bind_eq_some_iff.mp h
    cases h
    exact .inl rfl
  | created tData thread t =>
    obtain ⟨m, -, h⟩ := Option.bind_eq_some_iff.mp h
    obtain ⟨m₁, -, h⟩ := Option.bind_eq_some_iff.mp h
    obtain ⟨m₂, -, h⟩ := Option.bind_eq_some_iff.mp h
    cases h
    exact .inr ⟨tData, thread, rfl⟩

/-- The step that returns destroys the mutex. -/
theorem MainActs.last {ans : Answer} (h : MainActs s ans s') (hret : s'.Returned) :
    s.pc = .destroy ∧ s'.fileMutex = .destroyed := by
  cases h with
  | destroys hpc => exact ⟨hpc, rfl⟩
  | setsUp hpc hset =>
    rw [Process.Returned] at hret
    obtain hloop | ⟨tData, thread, hinsert⟩ := setUp_pc hset
    · rw [hloop] at hret
      cases hret
    · rw [hinsert] at hret
      cases hret
  | _ => cases hret

/-- Behind the last join all threads have returned. -/
theorem Sound.all_returned (h : Sound s) (hpc : s.pc = .destroy ∨ s.pc = .returned) {th : Thread}
    (hth : s.threads t = some th) : th.Returned := by
  obtain ⟨⟨pending, listed, hbooks, -, hplace⟩, -⟩ := h
  have hnil : pending = [] ∧ listed = [] := by
    unfold Place at hplace
    rcases hpc with hpc | hpc
    · rw [hpc] at hplace
      exact hplace
    · rw [hpc] at hplace
      exact hplace
  obtain ⟨rfl, rfl⟩ := hnil
  have hcreated := hbooks.mem_created t th hth
  rw [hbooks.created_iff] at hcreated
  obtain ⟨th', hth', hret⟩ := hbooks.returned t (by simpa using hcreated)
  obtain rfl := Option.some.inj (hth.symm.trans hth')
  exact hret

/-- A step of main: a new thread is outside, and the mutex goes when all have returned. -/
theorem Exclusive.mainStep (h : Exclusive s) (hsound : Sound s) {ans : Answer}
    (hact : MainActs s ans s') : Exclusive s' := by
  have hthreads : ∀ u th₁, s'.threads u = some th₁ → s.threads u = some th₁ ∨ th₁.pc = .begin := by
    intro u th₁ hu
    cases hact.creates with
    | none heq => exact .inl (heq ▸ hu)
    | @one t tData hfree heq =>
      rw [heq] at hu
      by_cases hut : u = t
      · rw [hut, Function.update_self] at hu
        exact .inr (Option.some.inj hu ▸ rfl)
      · rw [Function.update_of_ne hut] at hu
        exact .inl hu
  have hold : ∀ u th₁, s.threads u = some th₁ → s'.threads u = some th₁ := by
    intro u th₁ hu
    cases hact.creates with
    | none heq => exact heq ▸ hu
    | @one t tData hfree heq =>
      have hut : u ≠ t := by
        rintro rfl
        rw [hfree] at hu
        cases hu
      rw [heq, Function.update_of_ne hut, hu]
  have hinside : ∀ u, s'.Inside u ↔ s.Inside u := by
    intro u
    refine ⟨?_, fun ⟨th₁, hu, hin⟩ => ⟨th₁, hold u th₁ hu, hin⟩⟩
    rintro ⟨th₁, hu, hin⟩
    rcases hthreads u th₁ hu with hu | hbegin
    · exact ⟨th₁, hu, hin⟩
    · rw [hbegin] at hin
      cases hin
  have honce : ∀ u th₁, s'.threads u = some th₁ → toUnlock th₁.pc ≤ 1 := by
    intro u th₁ hu
    rcases hthreads u th₁ hu with hu | hbegin
    · exact h.once u th₁ hu
    · rw [hbegin]
      exact Nat.zero_le 1
  have hopened : ∀ u th₁, s'.threads u = some th₁ → th₁.Opened := by
    intro u th₁ hu
    rcases hthreads u th₁ hu with hu | hbegin
    · exact h.opened u th₁ hu
    · rw [Thread.Opened, hbegin]
      exact ⟨Nat.zero_le 1, fun habs => by cases habs⟩
  have hunique : ∀ u v, s'.Inside u → s'.Inside v → u = v := fun u v hu hv =>
    h.unique u v ((hinside u).mp hu) ((hinside v).mp hv)
  obtain ⟨hleft, hmutex⟩ := hact.mutex
  by_cases hlast : s'.pc = .returned
  · -- the last step
    obtain ⟨hpc, hdestroyed⟩ := hact.last hlast
    have hnobody : ∀ u, ¬ s'.Inside u := by
      rintro u hu
      obtain ⟨th₁, hth₁, hin⟩ := (hinside u).mp hu
      rw [show th₁.pc = .exit [] from hsound.all_returned (.inl hpc) hth₁] at hin
      cases hin
    exact {
      once := honce
      opened := hopened
      locked := fun u hu => absurd hu (hnobody u)
      unique := hunique
      held := fun hlocked => by
        rw [hdestroyed] at hlocked
        cases hlocked
      destroyed := fun _ => hdestroyed }
  · have hsame : s'.fileMutex = s.fileMutex := hmutex.resolve_right hlast
    exact {
      once := honce
      opened := hopened
      locked := fun u hu => hsame.trans (h.locked u ((hinside u).mp hu))
      unique := hunique
      held := fun hlocked => by
        obtain ⟨u, hu⟩ := h.held (hsame.symm.trans hlocked)
        exact ⟨u, (hinside u).mpr hu⟩
      destroyed := fun hret => absurd hret hlast }

end Step

theorem Exclusive.step {s s' : Process} {turn : Turn} {u : Unit} (h : Exclusive s)
    (hsound : Sound s) (hstep : s.step turn = some (u, s')) : Exclusive s' := by
  cases step_cases hstep with
  | main hact => exact h.mainStep hsound hact
  | thread hthread => exact h.threadStep hthread
  | signal =>
    exact {
      once := h.once
      opened := h.opened
      locked := h.locked
      unique := h.unique
      held := h.held
      destroyed := h.destroyed }

theorem run_exclusive {taken : Fd → Bool} {turns : List Turn} {us : List Unit} {s : Process}
    (hrun : run Process.step (.start taken) turns = some (us, s)) : Sound s ∧ Exclusive s :=
  run_inv (I := fun s => Sound s ∧ Exclusive s)
    (fun _ _ _ _ h hstep => ⟨h.1.step hstep, h.2.step h.1 hstep⟩)
    ⟨sound_start taken, exclusive_start taken⟩ hrun

/-- However main, the threads and the signal come, and whatever fails: the mutex is locked
    exactly while a thread is between its `lock_mutex` and its `unlock_mutex`, no two
    threads are, and the mutex is gone exactly when `run_server` has returned, and then
    every thread has. -/
theorem run_server_excludes {taken : Fd → Bool} {turns : List Turn} {us : List Unit}
    {s : Process} (hrun : run Process.step (.start taken) turns = some (us, s)) :
    (s.fileMutex = .locked ↔ ∃ t, s.Inside t) ∧ (∀ t u, s.Inside t → s.Inside u → t = u) ∧
      (s.fileMutex = .destroyed ↔ s.Returned) ∧
      (s.Returned → ∀ t th, s.threads t = some th → th.Returned) := by
  obtain ⟨hsound, h⟩ := run_exclusive hrun
  refine ⟨⟨h.held, ?_⟩, h.unique, ⟨hsound.mutex, h.destroyed⟩, ?_⟩
  · rintro ⟨t, ht⟩
    exact h.locked t ht
  · intro hret t th hth
    exact hsound.all_returned (.inr hret) hth

/-! ## Nothing is stuck -/

/-- How many steps bring a thread to its end if every call fails. -/
def toReturn : Pc → Nat
  | .begin => 4
  | .lock => 3
  | .open => 2
  | .exit todo => todo.length
  | _ => 6

/-- Some answer leads nearer to the end, and not by an `open` that needs a descriptor. -/
theorem control_nears {c : Control} (hleft : ¬ c.Returned) (hnot : c.pc ≠ .lock) :
    ∃ o act c', c.step o = some (act, c') ∧ act ≠ .lock ∧ act ≠ .open true ∧
      toReturn c'.pc < toReturn c.pc := by
  obtain ⟨pc, complete, success, recvRet, sendRet⟩ := c
  -- a call that fails leads to `failed`
  have hfailed : toReturn failed < 6 := by decide
  cases pc with
  | begin => exact ⟨.go, _, _, rfl, nofun, nofun, Nat.lt_succ_self 3⟩
  | lock => exact absurd rfl hnot
  | «open» => exact ⟨.opened false, _, _, rfl, nofun, nofun, Nat.lt_succ_self 1⟩
  | recv => exact ⟨.received .closed none, _, _, rfl, nofun, nofun, hfailed⟩
  | ioctl seekto size => exact ⟨.returned (-1), _, _, rfl, nofun, nofun, hfailed⟩
  | write bytes size => exact ⟨.returned (-1), _, _, rfl, nofun, nofun, hfailed⟩
  | read => exact ⟨.returned (-1), _, _, rfl, nofun, nofun, hfailed⟩
  | send bytesRead => exact ⟨.sent .error, _, _, rfl, nofun, nofun, hfailed⟩
  | exit todo =>
    cases todo with
    | nil => exact absurd rfl hleft
    | cons op todo =>
      refine ⟨.go, _, _, rfl, ?_, ?_, ?_⟩
      · cases op <;> nofun
      · cases op <;> nofun
      · rw [exit_pc]
        exact Nat.lt_succ_self _

/-- A step of thread `t` that leads nearer to its end. -/
structure Nears (s s' : Process) (t : Tid) : Prop where
  threads : ∃ th th', s.threads t = some th ∧
    s'.threads = Function.update s.threads t (some th') ∧ toReturn th'.pc < toReturn th.pc
  created : s'.created = s.created
  slist : s'.slist = s.slist
  pc : s'.pc = s.pc
  quit : s'.quit = s.quit

section Progress

variable {s : Process} {t : Tid} {th : Thread}

/-- A thread with live arguments whose action is possible takes its step. -/
theorem threadStep_nears {a : ConnectionThreadArgs} {o : Outcome} {fd : Fd} {act : Action}
    {c : Control} {s₁ : Process} (hth : s.threads t = some th)
    (ha : s.args th.connectionData = some a) (hc : (th.control a).step o = some (act, c))
    (hperform : s.perform t th a fd act = some s₁) (hlt : toReturn c.pc < toReturn th.pc) :
    ∃ s', s.step (.thread t o fd) = some ((), s') ∧ Nears s s' t := by
  have hstep : s.threadStep t o fd =
      some { s₁ with toRecords := s₁.setThread t (th.after c fd act) (a.after c) } := by
    simp only [Process.threadStep, hth, ha, hc, hperform, Option.bind_eq_bind, Option.bind_some]
  obtain ⟨fileMutex, fds, closes, rfl, -⟩ := perform_eq_some hperform
  refine ⟨_, by rw [Process.step, hstep]; rfl, ?_⟩
  exact { threads := ⟨th, _, hth, rfl, hlt⟩, created := rfl, slist := rfl, pc := rfl, quit := rfl }

/-- An action is possible with the mutex in place: free to be locked, a free number to be
    opened, and a descriptor of the device that is closed. -/
theorem perform_defined {a : ConnectionThreadArgs} {fd : Fd} {act : Action}
    (hlock : act = .lock → s.fileMutex = .unlocked) (hopen : act = .open true → s.fds fd = none)
    (hmutex : s.fileMutex ≠ .destroyed) (hclose : act = .closeOutput → th.outputFd ≠ none) :
    ∃ s₁, s.perform t th a fd act = some s₁ := by
  unfold Process.perform
  split
  case h_1 => exact ⟨_, by rw [hlock rfl]⟩
  case h_2 =>
    split
    case h_1 heq => exact absurd heq hmutex
    case h_2 => exact ⟨_, rfl⟩
  case h_3 => exact ⟨_, by rw [Process.openFd, hopen rfl]⟩
  case h_4 =>
    obtain ⟨n, hn⟩ := Option.ne_none_iff_exists'.mp (hclose rfl)
    exact ⟨_, by rw [hn, Option.map_some]⟩
  case h_5 => exact ⟨_, rfl⟩
  case h_6 => exact ⟨_, rfl⟩

/-- A thread that closes the device has its descriptor. -/
theorem Thread.Opened.closes {a : ConnectionThreadArgs} {o : Outcome} {c : Control}
    (h : th.Opened) (hc : (th.control a).step o = some (.closeOutput, c)) :
    th.outputFd ≠ none := by
  have ho : o ≠ .opened false := by
    rintro rfl
    cases (eq_of_openFails hc).1
  obtain ⟨hle, hopened⟩ := h
  cases step_leaves ho hc with
  | closesOutput hclose houtput =>
    have hpc : toCloseOutput th.pc = toCloseOutput c.pc + 1 := houtput
    exact hopened (by omega)
  | other hopen hout hclient hclose houtput => exact absurd rfl hout

/-- A thread that is not at its `lock_mutex` can take a step. -/
theorem Exclusive.thread_nears (h : Exclusive s) (hbooks : Bookkeeping s)
    (hth : s.threads t = some th) (hleft : ¬ th.Returned) (hnot : th.pc ≠ .lock) :
    ∃ o fd s', s.step (.thread t o fd) = some ((), s') ∧ Nears s s' t := by
  obtain ⟨hargs, hmutex⟩ := hbooks.alive t th hth hleft
  obtain ⟨a, ha⟩ := Option.ne_none_iff_exists'.mp hargs
  obtain ⟨o, act, c, hc, hlock, hopen, hlt⟩ := control_nears (c := th.control a) hleft hnot
  have hclose : act = .closeOutput → th.outputFd ≠ none := by
    rintro rfl
    exact (h.opened t th hth).closes hc
  have hperform : ∃ s₁, s.perform t th a 0 act = some s₁ :=
    perform_defined (fun heq => absurd heq hlock) (fun heq => absurd heq hopen) hmutex hclose
  obtain ⟨s₁, hs₁⟩ := hperform
  exact ⟨o, 0, threadStep_nears hth ha hc hs₁ hlt⟩

/-- A thread that has not returned can take a step, or another has the mutex that it waits for,
    which can. -/
theorem Exclusive.progress (h : Exclusive s) (hbooks : Bookkeeping s)
    (hth : s.threads t = some th) (hleft : ¬ th.Returned) :
    ∃ u, (u = t ∨ s.Inside u) ∧ ∃ o fd s', s.step (.thread u o fd) = some ((), s') ∧
      Nears s s' u := by
  by_cases hpc : th.pc = .lock
  · obtain ⟨hargs, hmutex⟩ := hbooks.alive t th hth hleft
    cases hfree : s.fileMutex with
    | unlocked =>
      obtain ⟨a, ha⟩ := Option.ne_none_iff_exists'.mp hargs
      have hc : (th.control a).step .go = some (.lock, { th.control a with pc := .open }) :=
        (ControlActs.locks hpc).step_eq
      have hperform : s.perform t th a 0 .lock = some { s with fileMutex := .locked } := by
        unfold Process.perform
        rw [hfree]
      have hlt : toReturn .open < toReturn th.pc := by
        rw [hpc]
        decide
      exact ⟨t, .inl rfl, .go, 0, threadStep_nears hth ha hc hperform hlt⟩
    | locked =>
      obtain ⟨u, th', hth', hin⟩ := h.held hfree
      have hleft' : ¬ th'.Returned := by
        intro hret
        rw [show th'.pc = .exit [] from hret] at hin
        cases hin
      have hnot : th'.pc ≠ .lock := by
        intro hlock
        rw [hlock] at hin
        cases hin
      exact ⟨u, .inr ⟨th', hth', hin⟩, h.thread_nears hbooks hth' hleft' hnot⟩
    | destroyed => exact absurd hfree hmutex
  · exact ⟨t, .inl rfl, h.thread_nears hbooks hth hleft hpc⟩

end Progress

/-- Main joins thread 1, which waits for the mutex, which thread 0 has. -/
def waitingInLine : List Turn :=
  newConnection 0 4 100 200 0 300 ++ newConnection 1 5 101 201 1 301 ++
    [.thread 0 .go 0, .thread 0 .go 0, .thread 1 .go 0] ++ List.replicate 4 (.main .go) ++
    [.signal, .main (.accepted none), .main .go, .main .go]

theorem waitingInLine_ends :
    (run Process.step (.start fun fd => decide (fd < 4)) waitingInLine).map (fun r =>
      (r.2.pc, r.2.fileMutex, (r.2.threads 1).map Thread.pc)) =
        some (.shutdownJoin 301, .locked, some .lock) := rfl

theorem waitingInLine_excludes :
    ∃ us s, run Process.step (.start fun fd => decide (fd < 4)) waitingInLine = some (us, s) ∧
      s.pc = .shutdownJoin 301 ∧ (∃ t, s.Inside t) ∧ ∀ t u, s.Inside t → s.Inside u → t = u := by
  obtain ⟨⟨us, s⟩, hrun, heq⟩ := Option.map_eq_some_iff.mp waitingInLine_ends
  obtain ⟨hpc, heq⟩ := Prod.mk.inj heq
  obtain ⟨hlocked, -⟩ := Prod.mk.inj heq
  obtain ⟨hheld, hunique, -⟩ := run_server_excludes hrun
  exact ⟨us, s, hrun, hpc, hheld.mp hlocked, hunique⟩

/-- Nobody is ever stuck, whatever has failed: a thread that has not returned can take a step, or
    another has the mutex and can; main can, or it has returned, or it joins a thread that has
    not returned; so until `run_server` has returned there is always a step that main or
    some thread can take. -/
theorem run_server_never_stuck {taken : Fd → Bool} {turns : List Turn} {us : List Unit}
    {s : Process} (hrun : run Process.step (.start taken) turns = some (us, s)) :
    (∀ t th, s.threads t = some th → ¬ th.Returned →
      ∃ u, (u = t ∨ s.Inside u) ∧ ∃ o fd, (s.step (.thread u o fd)).isSome = true) ∧
      (s.Returned ∨ s.Waits ∨ ∃ ans, (s.step (.main ans)).isSome = true) ∧
      (s.Returned ∨ (∃ ans, (s.step (.main ans)).isSome = true) ∨
        ∃ t o fd, (s.step (.thread t o fd)).isSome = true) := by
  obtain ⟨hsound, h⟩ := run_exclusive hrun
  have hthreads : ∀ t th, s.threads t = some th → ¬ th.Returned →
      ∃ u, (u = t ∨ s.Inside u) ∧ ∃ o fd, (s.step (.thread u o fd)).isSome = true :=
    fun t th hth hleft => by
      obtain ⟨u, hu, o, fd, s', hstep, -⟩ := h.progress hsound.bookkeeping hth hleft
      exact ⟨u, hu, o, fd, by rw [hstep, Option.isSome_some]⟩
  have hmain : s.Returned ∨ s.Waits ∨ ∃ ans, (s.step (.main ans)).isSome = true := by
    refine hsound.goes_on.imp_right (Or.imp_right ?_)
    rintro ⟨ans, s', hstep⟩
    refine ⟨ans, ?_⟩
    rw [Process.step, hstep]
    rfl
  refine ⟨hthreads, hmain, hmain.imp_right ?_⟩
  rintro (⟨datap, -, c, t, th, -, -, hth, hleft⟩ | hgo)
  · -- the thread that main joins, or the one that has the mutex
    obtain ⟨u, -, o, fd, hstep⟩ := hthreads t th hth hleft
    exact .inr ⟨u, o, fd, hstep⟩
  · exact .inl hgo

theorem waitingInLine_goes_on :
    ∃ us s, run Process.step (.start fun fd => decide (fd < 4)) waitingInLine = some (us, s) ∧
      s.pc = .shutdownJoin 301 ∧
      ∃ u, (u = 1 ∨ s.Inside u) ∧ ∃ o fd, (s.step (.thread u o fd)).isSome = true := by
  obtain ⟨⟨us, s⟩, hrun, heq⟩ := Option.map_eq_some_iff.mp waitingInLine_ends
  obtain ⟨hpc, heq⟩ := Prod.mk.inj heq
  obtain ⟨-, hthread⟩ := Prod.mk.inj heq
  obtain ⟨th, hth, hlock⟩ := Option.map_eq_some_iff.mp hthread
  obtain ⟨hthreads, -, -⟩ := run_server_never_stuck hrun
  refine ⟨us, s, hrun, hpc, hthreads 1 th hth ?_⟩
  intro hret
  rw [show th.pc = .exit [] from hret] at hlock
  cases hlock

end Aesd.Server
