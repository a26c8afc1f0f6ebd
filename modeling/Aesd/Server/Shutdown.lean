/-
  Aesd.Server.Shutdown

  The end of `run_server`.  Once `quit` is set main takes a bounded number of
  steps, however the threads and the calls go on (`Process.budget` falls with
  each), and whatever the server is doing it can be brought to its end
  (`run_server_can_return`): clients that hang up and calls that fail are
  enough.
-/
import Mathlib.Algebra.Order.BigOperators.Group.List
import Aesd.Server.Exclusion

namespace Aesd.Server

open Aesd.Lib

/-! ## The steps that main has left -/

/-- The nodes from `datap` on. -/
def Process.ahead (s : Process) (datap : Option Addr) : Nat :=
  ((s.slist.walk s.slist.size datap).getD []).length

/-- How many steps main has left at most, once `quit` is set: three for each node that the
    reaping pass has ahead and for each that the shutdown finds, and those of one more
    connection. -/
def Process.budget (s : Process) : Nat :=
  match s.pc with
  | .visit datap => 3 * s.ahead datap + 3 * s.slist.size + 10
  | .join _ tmp => 3 * s.ahead tmp + 3 * s.slist.size + 12
  | .reap _ tmp => 3 * s.ahead tmp + 3 * s.slist.size + 11
  | .accept => 3 * s.slist.size + 9
  | .setUp _ => 3 * s.slist.size + 8
  | .insert _ _ => 3 * s.slist.size + 7
  | .loop => 3 * s.slist.size + 3
  | .shutdown => 3 * s.slist.size + 2
  | .shutdownJoin _ => 3 * s.slist.size + 1
  | .shutdownReap _ => 3 * s.slist.size
  | .destroy => 1
  | .returned => 0

section Budget

variable {s s' : Process} {pending : List Entry} {listed done rest : List (Addr × Entry)}
  {datap : Addr} {e : Entry}

theorem ahead_eq {l : SList Addr SlistData} (hlist : s.slist = l)
    (h : l.Holds ((done ++ rest).map nodeOf)) :
    s.ahead (SList.link (rest.map nodeOf)) = rest.length := by
  have hseg := h.seg
  rw [List.map_append] at hseg
  obtain ⟨r, -, hrest⟩ := SList.seg_append.mp hseg
  have hr : r = SList.link (rest.map nodeOf) := SList.seg_link hrest
  rw [hr] at hrest
  have hle : (rest.map nodeOf).length ≤ l.size := by
    rw [h.size_eq, List.map_append, List.length_append]
    omega
  rw [Process.ahead, hlist, SList.walk_eq hrest hle, Option.getD_some, List.length_map]

theorem size_eq {l : SList Addr SlistData} (h : l.Holds (listed.map nodeOf)) :
    l.size = listed.length := by
  rw [h.size_eq, List.length_map]

theorem setUp_slist {clientFd : Fd} {res : SetUp} (h : s.setUp clientFd res = some s') :
    s'.slist = s.slist := by
  cases res with
  | noArgs =>
    cases h
    rfl
  | noThread tData =>
    obtain ⟨m, hargs, h⟩ := Option.bind_eq_some_iff.mp h
    obtain ⟨-, rfl⟩ := newArgs_eq_some hargs
    cases h
    rfl
  | notCreated tData thread =>
    obtain ⟨m, hargs, h⟩ := Option.bind_eq_some_iff.mp h
    obtain ⟨m₁, hhandle, h⟩ := Option.bind_eq_some_iff.mp h
    obtain ⟨-, rfl⟩ := newArgs_eq_some hargs
    obtain ⟨-, rfl⟩ := newHandle_eq_some hhandle
    cases h
    rfl
  | created tData thread t =>
    obtain ⟨m, hargs, h⟩ := Option.bind_eq_some_iff.mp h
    obtain ⟨m₁, hhandle, h⟩ := Option.bind_eq_some_iff.mp h
    obtain ⟨m₂, hcreate, h⟩ := Option.bind_eq_some_iff.mp h
    obtain ⟨-, rfl⟩ := newArgs_eq_some hargs
    obtain ⟨-, rfl⟩ := newHandle_eq_some hhandle
    obtain ⟨-, rfl⟩ := create_eq_some hcreate
    cases h
    rfl

/-- With `datap` behind it, the pass has `rest` ahead. -/
theorem ahead_next {l : SList Addr SlistData} (hlist : s.slist = l)
    (h : l.Holds ((done ++ (datap, e) :: rest).map nodeOf)) :
    s.ahead (SList.link (rest.map nodeOf)) = rest.length := by
  have hsplit : done ++ (datap, e) :: rest = (done ++ [(datap, e)]) ++ rest := by simp
  rw [hsplit] at h
  exact ahead_eq hlist h

/-- The node at `datap` is the first of those ahead. -/
theorem ahead_this (h : s.slist.Holds ((done ++ (datap, e) :: rest).map nodeOf)) :
    s.ahead (some datap) = rest.length + 1 := by
  have hahead : s.ahead (SList.link (((datap, e) :: rest).map nodeOf)) = _ := ahead_eq rfl h
  exact hahead

/-- Every step of main uses up some of the budget. -/
theorem Keeps.budget_lt (h : Keeps s pending listed) (hquit : s.quit = true) {ans : Answer}
    (hact : MainActs s ans s') : s'.budget < s.budget := by
  have hbooks := h.books
  have hholds := h.holds
  have hplace := h.place
  unfold Place at hplace
  cases hact with
  | quits hpc hquit' =>
    simp only [Process.budget, hpc]
    omega
  | passStarts hpc hgo =>
    rw [hquit] at hgo
    cases hgo
  | passEnds hpc =>
    simp only [Process.budget, hpc]
    omega
  | @sees datap c a hpc hcell hargs hcomplete =>
    rw [hpc] at hplace
    obtain ⟨-, -, -, done, rest, rfl, hlink⟩ := hplace
    obtain ⟨e, rest, rfl⟩ := eq_cons_of_link hlink
    obtain rfl := Option.some.inj (hcell.symm.trans (cell_of_listed hholds))
    have hnext := ahead_next (s := { s with
      pc := .join datap (SList.link (rest.map nodeOf)),
      sawComplete := s.sawComplete ++ [datap] }) rfl hholds
    simp only [Process.budget, hpc, ahead_this hholds, hnext]
    omega
  | @keeps datap c a hpc hcell hargs hcomplete =>
    rw [hpc] at hplace
    obtain ⟨-, -, -, done, rest, rfl, hlink⟩ := hplace
    obtain ⟨e, rest, rfl⟩ := eq_cons_of_link hlink
    obtain rfl := Option.some.inj (hcell.symm.trans (cell_of_listed hholds))
    have hnext := ahead_next (s := { s with pc := .visit (SList.link (rest.map nodeOf)) }) rfl
      hholds
    simp only [Process.budget, hpc, ahead_this hholds, hnext]
    omega
  | @joins datap tmp m hpc hjoin =>
    have hlist : m.slist = s.slist := by
      obtain ⟨joined, rfl⟩ := join_frame hjoin
      rfl
    have hsame : Process.ahead { s with toRecords := m, pc := .reap datap tmp } tmp =
        s.ahead tmp := by
      rw [Process.ahead, Process.ahead, hlist]
    simp only [Process.budget, hpc, hsame, hlist]
    omega
  | @reaps datap tmp m hpc hreap =>
    rw [hpc] at hplace
    obtain ⟨rfl, done, e, rest, rfl, -, rfl, hjoined, -⟩ := hplace
    obtain ⟨-, hholds', -⟩ := hbooks.reapListed hholds hjoined (unlink_remove hholds) hreap
    have hnext := ahead_eq (s := { s with
      toRecords := m, pc := .visit (SList.link (rest.map nodeOf)) }) rfl hholds'
    have hsize := size_eq hholds
    have hsize' := size_eq hholds'
    rw [List.length_append, List.length_cons] at hsize
    rw [List.length_append] at hsize'
    simp only [Process.budget, hpc, ahead_next rfl hholds, hnext]
    omega
  | acceptFails hpc =>
    simp only [Process.budget, hpc]
    omega
  | accepts hpc hfree =>
    simp only [Process.budget, hpc]
    omega
  | setsUp hpc hset =>
    have hlist := setUp_slist hset
    obtain hloop | ⟨tData, thread, hinsert⟩ := setUp_pc hset
    · simp only [Process.budget, hpc, hloop, hlist]
      omega
    · simp only [Process.budget, hpc, hinsert, hlist]
      omega
  | @inserts tData thread datap l hpc hinsert =>
    -- one node more
    have hfree : s.slist.cell datap = none := by
      obtain ⟨l₁, halloc, -⟩ := Option.bind_eq_some_iff.mp hinsert
      rw [SList.alloc] at halloc
      split at halloc
      · assumption
      · cases halloc
    obtain ⟨l', hl', hholds'⟩ := hholds.insert hfree ⟨tData, thread⟩
    obtain rfl := Option.some.inj (hinsert.symm.trans hl')
    have hsize := hholds.size_eq
    have hsize' := hholds'.size_eq
    rw [List.length_cons] at hsize'
    simp only [Process.budget, hpc]
    omega
  | empties hpc hempty =>
    simp only [Process.budget, hpc]
    omega
  | closes hpc hfirst hargs =>
    simp only [Process.budget, hpc, Process.close]
    omega
  | shutdownJoins hpc hjoin =>
    obtain ⟨joined, rfl⟩ := join_frame hjoin
    simp only [Process.budget, hpc]
    omega
  | @shutdownReaps datap m hpc hreap =>
    rw [hpc] at hplace
    obtain ⟨rfl, e, rest, rfl, hjoined, -⟩ := hplace
    have hsplit : Books s.toRecords (([] ++ (datap, e) :: rest).map Prod.snd) := hbooks
    obtain ⟨-, hholds', -⟩ := hsplit.reapListed hholds hjoined hholds.unlinkHead hreap
    have hsize := size_eq hholds
    have hsize' := size_eq hholds'
    rw [List.length_cons] at hsize
    rw [List.nil_append] at hsize'
    simp only [Process.budget, hpc]
    omega
  | destroys hpc =>
    simp only [Process.budget, hpc]
    omega

end Budget

/-! ## Main ends -/

section Ends

variable {s s' : Process}

theorem walk_length_le {l : SList Addr SlistData} {fuel : Nat} {p : Option Addr}
    {xs : List (Addr × SlistData)} (h : l.walk fuel p = some xs) : xs.length ≤ fuel := by
  induction fuel generalizing p xs with
  | zero =>
    cases p with
    | none =>
      cases h
      exact Nat.le_refl 0
    | some a => cases h
  | succ fuel ih =>
    cases p with
    | none =>
      cases h
      exact Nat.zero_le _
    | some a =>
      obtain ⟨c, -, h⟩ := Option.bind_eq_some_iff.mp h
      obtain ⟨rest, hrest, h⟩ := Option.bind_eq_some_iff.mp h
      cases h
      exact Nat.succ_le_succ (ih hrest)

theorem ahead_le (s : Process) (datap : Option Addr) : s.ahead datap ≤ s.slist.size := by
  rw [Process.ahead]
  cases h : s.slist.walk s.slist.size datap with
  | none => exact Nat.zero_le _
  | some xs => exact walk_length_le h

/-- The budget by the number of nodes. -/
theorem budget_le (s : Process) : s.budget ≤ 6 * s.slist.size + 12 := by
  have hahead := ahead_le s
  unfold Process.budget
  split
  case h_1 datap _ =>
    have hle := hahead datap
    omega
  case h_2 datap tmp _ =>
    have hle := hahead tmp
    omega
  case h_3 datap tmp _ =>
    have hle := hahead tmp
    omega
  all_goals omega

theorem MainActs.quit {ans : Answer} (h : MainActs s ans s') (hquit : s.quit = true) :
    s'.quit = true := by
  cases h with
  | @setsUp clientFd res s' hpc hset =>
    cases res with
    | noArgs =>
      cases hset
      rfl
    | noThread tData =>
      obtain ⟨m, -, hset⟩ := Option.bind_eq_some_iff.mp hset
      cases hset
      rfl
    | notCreated tData thread =>
      obtain ⟨m, -, hset⟩ := Option.bind_eq_some_iff.mp hset
      obtain ⟨m₁, -, hset⟩ := Option.bind_eq_some_iff.mp hset
      cases hset
      rfl
    | created tData thread t =>
      obtain ⟨m, -, hset⟩ := Option.bind_eq_some_iff.mp hset
      obtain ⟨m₁, -, hset⟩ := Option.bind_eq_some_iff.mp hset
      obtain ⟨m₂, -, hset⟩ := Option.bind_eq_some_iff.mp hset
      cases hset
      exact hquit
  | _ => exact hquit

def Turn.isMain : Turn → Bool
  | .main _ => true
  | _ => false

/-- With `quit` set a step of main uses up some of the budget, and the others leave it. -/
theorem Sound.budget_step (h : Sound s) (hquit : s.quit = true) {turn : Turn} {u : Unit}
    (hstep : s.step turn = some (u, s')) :
    s'.quit = true ∧ s'.budget + (if turn.isMain then 1 else 0) ≤ s.budget := by
  obtain ⟨⟨pending, listed, hkeeps⟩, -⟩ := h
  cases step_cases hstep with
  | main hact => exact ⟨hact.quit hquit, hkeeps.budget_lt hquit hact⟩
  | thread hthread =>
    obtain ⟨th, a, act, c, s₁, -, -, -, hperform, rfl⟩ := threadStep_eq_some hthread
    obtain ⟨fileMutex, fds, closes, rfl, -⟩ := perform_eq_some hperform
    exact ⟨hquit, Nat.le_refl _⟩
  | signal => exact ⟨rfl, Nat.le_refl _⟩

/-- However the run goes on after the signal, main takes no more steps than this. -/
theorem Sound.main_steps_le (h : Sound s) (hquit : s.quit = true) {turns : List Turn}
    {us : List Unit} (hrun : run Process.step s turns = some (us, s')) :
    turns.countP Turn.isMain ≤ 6 * s.slist.size + 12 := by
  have hone : ∀ (s : Process) (turn : Turn) (u : Unit) (s' : Process), Sound s ∧ s.quit = true →
      True → s.step turn = some (u, s') → (Sound s' ∧ s'.quit = true) ∧
        s'.budget + (if turn.isMain then 1 else 0) ≤ s.budget := by
    rintro s turn u s' ⟨hs, hq⟩ - hstep
    obtain ⟨hq', hle⟩ := hs.budget_step hq hstep
    exact ⟨⟨hs.step hstep, hq'⟩, hle⟩
  have hcount := run_count_le hone ⟨h, hquit⟩ hrun (meets_of_forall (fun _ _ => trivial) s)
  exact (Nat.le_add_left _ _).trans (hcount.trans (budget_le s))

/-- Main can go on without a new thread wherever it can go on. -/
theorem MainActs.quiet {ans : Answer} (h : MainActs s ans s') :
    ∃ ans' s'', MainActs s ans' s'' ∧ s''.threads = s.threads ∧ s''.created = s.created := by
  cases h with
  | @setsUp clientFd res s' hpc hset =>
    have hnoArgs : s.setUp clientFd .noArgs = some _ := rfl
    exact ⟨_, _, .setsUp hpc hnoArgs, rfl, rfl⟩
  | joins hpc hjoin =>
    refine ⟨_, _, .joins hpc hjoin, ?_⟩
    obtain ⟨joined, rfl⟩ := join_frame hjoin
    exact ⟨rfl, rfl⟩
  | reaps hpc hreap =>
    refine ⟨_, _, .reaps hpc hreap, ?_⟩
    obtain ⟨handles, args, slist, rfl⟩ := reap_frame hreap
    exact ⟨rfl, rfl⟩
  | shutdownJoins hpc hjoin =>
    refine ⟨_, _, .shutdownJoins hpc hjoin, ?_⟩
    obtain ⟨joined, rfl⟩ := join_frame hjoin
    exact ⟨rfl, rfl⟩
  | shutdownReaps hpc hreap =>
    refine ⟨_, _, .shutdownReaps hpc hreap, ?_⟩
    obtain ⟨handles, args, slist, rfl⟩ := reap_frame hreap
    exact ⟨rfl, rfl⟩
  | quits hpc hquit => exact ⟨_, _, .quits hpc hquit, rfl, rfl⟩
  | passStarts hpc hquit => exact ⟨_, _, .passStarts hpc hquit, rfl, rfl⟩
  | passEnds hpc => exact ⟨_, _, .passEnds hpc, rfl, rfl⟩
  | sees hpc hcell hargs hcomplete => exact ⟨_, _, .sees hpc hcell hargs hcomplete, rfl, rfl⟩
  | keeps hpc hcell hargs hcomplete => exact ⟨_, _, .keeps hpc hcell hargs hcomplete, rfl, rfl⟩
  | acceptFails hpc => exact ⟨_, _, .acceptFails hpc, rfl, rfl⟩
  | accepts hpc hfree => exact ⟨_, _, .accepts hpc hfree, rfl, rfl⟩
  | inserts hpc hinsert => exact ⟨_, _, .inserts hpc hinsert, rfl, rfl⟩
  | empties hpc hempty => exact ⟨_, _, .empties hpc hempty, rfl, rfl⟩
  | closes hpc hfirst hargs => exact ⟨_, _, .closes hpc hfirst hargs, rfl, rfl⟩
  | destroys hpc => exact ⟨_, _, .destroys hpc, rfl, rfl⟩

/-- How many steps the threads have left if all that they call fails. -/
def Process.left (s : Process) : Nat :=
  (s.created.map fun t => (s.threads t).elim 0 fun th => toReturn th.pc).sum

theorem Nears.left_lt {t : Tid} (h : Nears s s' t) (hcreated : t ∈ s.created) :
    s'.left < s.left := by
  obtain ⟨th, th', hth, hthreads, hlt⟩ := h.threads
  rw [Process.left, Process.left, h.created, hthreads]
  apply List.sum_lt_sum
  · intro u _
    by_cases hut : u = t
    · rw [hut, Function.update_self, hth]
      exact Nat.le_of_lt hlt
    · rw [Function.update_of_ne hut]
  · refine ⟨t, hcreated, ?_⟩
    rw [Function.update_self, hth]
    exact hlt

theorem Nears.budget_eq {t : Tid} (h : Nears s s' t) : s'.budget = s.budget := by
  have hahead : ∀ datap, s'.ahead datap = s.ahead datap := fun datap => by
    rw [Process.ahead, Process.ahead, h.slist]
  unfold Process.budget
  simp only [h.pc, h.slist, hahead]

/-- Main and the threads can be brought to the end; main alone, once all threads are at
    theirs. -/
theorem Sound.can_return {s : Process} (hs : Sound s) (he : Exclusive s) (hquit : s.quit = true) :
    ∃ turns us s', run Process.step s turns = some (us, s') ∧ s'.Returned ∧
      ((∀ t th, s.threads t = some th → th.Returned) → ∀ turn ∈ turns, turn.isMain = true) := by
  induction hn : s.budget + s.left using Nat.strong_induction_on generalizing s with
  | _ n ih =>
    rcases hs.goes_on with hret | hwait | ⟨ans, s₁, hmain⟩
    · exact ⟨[], [], s, rfl, hret, fun _ _ hturn => absurd hturn List.not_mem_nil⟩
    · -- a thread, or the one that has the mutex, takes a step
      obtain ⟨datap, -, c, t, th, -, -, hth, hleft⟩ := hwait
      obtain ⟨u, -, o, fd, s₁, hstep, hnears⟩ := he.progress hs.bookkeeping hth hleft
      have hmem : u ∈ s.created := by
        obtain ⟨th', -, hth', -⟩ := hnears.threads
        obtain ⟨⟨pending, listed, hbooks, -⟩, -⟩ := hs
        exact hbooks.mem_created u th' hth'
      have hlt : s₁.budget + s₁.left < n := by
        have h := hnears.left_lt hmem
        have h' := hnears.budget_eq
        omega
      obtain ⟨turns, us, s', hrun, hret, -⟩ := ih _ hlt (hs.step hstep) (he.step hs hstep)
        (hnears.quit.trans hquit) rfl
      exact ⟨_ :: turns, _, s', run_cons_eq_some.mpr ⟨_, s₁, us, hstep, hrun, rfl⟩, hret,
        fun hall => absurd (hall t th hth) hleft⟩
    · obtain ⟨ans', s₂, hact, hthreads, hcreated⟩ := (mainStep_cases hmain).quiet
      have hstep : s.step (.main ans') = some ((), s₂) := by
        rw [Process.step, hact.mainStep_eq]
        rfl
      have hlt : s₂.budget + s₂.left < n := by
        obtain ⟨⟨pending, listed, hkeeps⟩, -⟩ := hs
        have h := hkeeps.budget_lt hquit hact
        have h' : s₂.left = s.left := by rw [Process.left, Process.left, hthreads, hcreated]
        omega
      obtain ⟨turns, us, s', hrun, hret, hall⟩ := ih _ hlt (hs.step hstep) (he.step hs hstep)
        (hact.quit hquit) rfl
      refine ⟨.main ans' :: turns, _, s', run_cons_eq_some.mpr ⟨_, s₂, us, hstep, hrun, rfl⟩,
        hret, fun hdone turn hturn => ?_⟩
      rcases List.mem_cons.mp hturn with rfl | hturn
      · rfl
      · exact hall (hthreads ▸ hdone) turn hturn

end Ends

/-- Whatever the server is doing, a signal and clients that hang up bring it to its end: from
    every state that it can be in there is a way to one where `run_server` has returned. -/
theorem run_server_can_return {taken : Fd → Bool} {turns : List Turn} {us : List Unit}
    {s : Process} (hrun : run Process.step (.start taken) turns = some (us, s)) :
    ∃ later us' s', run Process.step s (.signal :: later) = some (us', s') ∧ s'.Returned := by
  obtain ⟨hs, he⟩ := run_exclusive hrun
  have hstep : s.step .signal = some ((), { s with quit := true }) := rfl
  obtain ⟨later, us', s', hlater, hret, -⟩ := (hs.step hstep).can_return (he.step hs hstep) rfl
  exact ⟨later, _, s', run_cons_eq_some.mpr ⟨_, _, us', hstep, hlater, rfl⟩, hret⟩

theorem waitingInLine_can_return :
    ∃ us s, run Process.step (.start fun fd => decide (fd < 4)) waitingInLine = some (us, s) ∧
      ∃ later us' s', run Process.step s (.signal :: later) = some (us', s') ∧ s'.Returned := by
  obtain ⟨⟨us, s⟩, hrun, -⟩ := Option.map_eq_some_iff.mp waitingInLine_ends
  exact ⟨us, s, hrun, run_server_can_return hrun⟩

/-- Once `quit` is set, main takes at most six steps for each node of the list and twelve more,
    whatever the threads and the calls do; and when all threads have returned, so does
    main, alone. -/
theorem run_server_shuts_down {taken : Fd → Bool} {turns : List Turn} {us : List Unit}
    {s : Process} (hrun : run Process.step (.start taken) turns = some (us, s))
    (hquit : s.quit = true) :
    (∀ later us' s', run Process.step s later = some (us', s') →
      later.countP Turn.isMain ≤ 6 * s.slist.size + 12) ∧
      ((∀ t th, s.threads t = some th → th.Returned) →
        ∃ later us' s', run Process.step s later = some (us', s') ∧ s'.Returned ∧
          ∀ turn ∈ later, turn.isMain = true) := by
  obtain ⟨hs, he⟩ := run_exclusive hrun
  refine ⟨fun later us' s' hlater => hs.main_steps_le hquit hlater, fun hdone => ?_⟩
  obtain ⟨later, us', s', hlater, hret, hmain⟩ := hs.can_return he hquit
  exact ⟨later, us', s', hlater, hret, hmain hdone⟩

theorem waitingInLine_shuts_down :
    ∃ us s, run Process.step (.start fun fd => decide (fd < 4)) waitingInLine = some (us, s) ∧
      ∀ later us' s', run Process.step s later = some (us', s') →
        later.countP Turn.isMain ≤ 24 := by
  have hend : (run Process.step (.start fun fd => decide (fd < 4)) waitingInLine).map
      (fun r => (r.2.quit, r.2.slist.size)) = some (true, 2) := rfl
  obtain ⟨⟨us, s⟩, hrun, heq⟩ := Option.map_eq_some_iff.mp hend
  obtain ⟨hquit, hsize⟩ := Prod.mk.inj heq
  obtain ⟨hsteps, -⟩ := run_server_shuts_down hrun hquit
  dsimp only at hsize
  rw [hsize] at hsteps
  exact ⟨us, s, hrun, hsteps⟩

end Aesd.Server
