/-
  Aesd.Server.Memory

  Whose the records of `run_server` are.  Each one that is live belongs to a
  node of the list, to the thread that main is about to list, or to a set-up
  that has failed behind its first `malloc`; there is at most one such, because
  it sets `quit`.  So when `run_server` has returned nothing is left but what
  that one has lost (`run_server_frees`).
-/
import Aesd.Server.Exclusion

namespace Aesd.Server

open Aesd.Lib

/-- The set-up fails when something has been allocated. -/
def Turn.Loses : Turn → Prop
  | .main (.setUp (.noThread _)) => True
  | .main (.setUp (.notCreated _ _)) => True
  | _ => False

/-- Main is past its last set-up. -/
def Process.Leaving (s : Process) : Prop :=
  match s.pc with
  | .loop => s.quit = true
  | .shutdown => True
  | .shutdownJoin _ => True
  | .shutdownReap _ => True
  | .destroy => True
  | .returned => True
  | _ => False

/-- A signal does not bring main back. -/
theorem Process.Leaving.signal {s : Process} (h : s.Leaving) :
    Process.Leaving { s with quit := true } := by
  revert h
  unfold Process.Leaving
  dsimp only
  split <;> simp

/-- Every record that is live belongs to a node of the list, to a thread that main is about to
    list, or to the set-up that has failed, whose records `lost` nobody will give back. -/
structure Accounted (s : Process) (nodes : List (Addr × SlistData))
    (lost : Option (Addr × Option Addr)) : Prop where
  holds : s.slist.Holds nodes
  args : ∀ p, s.args p ≠ none → p ∈ nodes.map (fun node => node.2.connection) ∨
    (∃ q, s.pc = .insert p q) ∨ lost.map Prod.fst = some p
  handles : ∀ q, s.handles q ≠ none → q ∈ nodes.map (fun node => node.2.thread) ∨
    (∃ p, s.pc = .insert p q) ∨ lost.bind Prod.snd = some q
  lost_args : ∀ p, lost.map Prod.fst = some p →
    s.args p ≠ none ∧ p ∉ nodes.map (fun node => node.2.connection)
  leaving : lost ≠ none → s.Leaving

theorem accounted_start (taken : Fd → Bool) : Accounted (.start taken) [] none where
  holds := SList.holds_empty
  args p h := absurd rfl h
  handles q h := absurd rfl h
  lost_args p h := by cases h
  leaving h := absurd rfl h

section Accounts

variable {s s' : Process} {nodes : List (Addr × SlistData)} {lost : Option (Addr × Option Addr)}

/-- A step that leaves the records and the list, and does not come from a set-up. -/
theorem Accounted.congr (h : Accounted s nodes lost) (hlist : s'.slist = s.slist)
    (hargs : ∀ p, s'.args p ≠ none ↔ s.args p ≠ none)
    (hhandles : ∀ q, s'.handles q ≠ none ↔ s.handles q ≠ none)
    (hinsert : ∀ p q, s.pc = .insert p q → s'.pc = .insert p q)
    (hleaving : s.Leaving → s'.Leaving) : Accounted s' nodes lost where
  holds := hlist ▸ h.holds
  args p hp := by
    refine (h.args p ((hargs p).mp hp)).imp_right (Or.imp_left ?_)
    rintro ⟨q, hq⟩
    exact ⟨q, hinsert p q hq⟩
  handles q hq := by
    refine (h.handles q ((hhandles q).mp hq)).imp_right (Or.imp_left ?_)
    rintro ⟨p, hp⟩
    exact ⟨p, hinsert p q hp⟩
  lost_args p hp := ⟨(hargs p).mpr (h.lost_args p hp).1, (h.lost_args p hp).2⟩
  leaving hlost := hleaving (h.leaving hlost)

theorem Accounted.threadStep (h : Accounted s nodes lost) {t : Tid} {o : Outcome} {fd : Fd}
    (hstep : s.threadStep t o fd = some s') : Accounted s' nodes lost := by
  obtain ⟨th, a, act, c, s₁, -, ha, -, hperform, rfl⟩ := threadStep_eq_some hstep
  obtain ⟨fileMutex, fds, closes, rfl, -⟩ := perform_eq_some hperform
  refine h.congr rfl (fun p => ?_) (fun q => Iff.rfl) (fun p q hpc => hpc) id
  -- its arguments are written, and were live before
  show Function.update s.args th.connectionData (some (a.after c)) p ≠ none ↔ s.args p ≠ none
  by_cases heq : p = th.connectionData
  · rw [heq, Function.update_self, ha]
    simp
  · rw [Function.update_of_ne heq]

/-- A node is taken out, and the records of its thread are given back. -/
theorem Accounted.reap {xs ys : List (Addr × SlistData)} {x : Addr × SlistData}
    (h : Accounted s (xs ++ x :: ys) lost) (hholds : s'.slist.Holds (xs ++ ys))
    (hargs : s'.args = Function.update s.args x.2.connection none)
    (hhandles : s'.handles = Function.update s.handles x.2.thread none)
    (hinsert : ∀ p q, s.pc ≠ .insert p q) (hleaving : s.Leaving → s'.Leaving) :
    Accounted s' (xs ++ ys) lost where
  holds := hholds
  args p hp := by
    rw [hargs] at hp
    have hne : p ≠ x.2.connection := by
      rintro rfl
      exact hp (Function.update_self ..)
    rw [Function.update_of_ne hne] at hp
    rcases h.args p hp with hmem | ⟨q, hpc⟩ | hlost
    · left
      simpa [hne] using hmem
    · exact absurd hpc (hinsert p q)
    · exact .inr (.inr hlost)
  handles q hq := by
    rw [hhandles] at hq
    have hne : q ≠ x.2.thread := by
      rintro rfl
      exact hq (Function.update_self ..)
    rw [Function.update_of_ne hne] at hq
    rcases h.handles q hq with hmem | ⟨p, hpc⟩ | hlost
    · left
      simpa [hne] using hmem
    · exact absurd hpc (hinsert p q)
    · exact .inr (.inr hlost)
  lost_args p hp := by
    obtain ⟨hlive, hnot⟩ := h.lost_args p hp
    have hne : p ≠ x.2.connection := by
      rintro rfl
      exact hnot (by simp)
    refine ⟨?_, fun hmem => hnot ?_⟩
    · rw [hargs, Function.update_of_ne hne]
      exact hlive
    · simp only [List.map_append, List.map_cons, List.mem_append, List.mem_cons] at hmem ⊢
      exact hmem.imp_right .inr
  leaving hlost := hleaving (h.leaving hlost)

variable {pending : List Entry} {listed : List (Addr × Entry)}

/-- The nodes are those of the books. -/
theorem Accounted.nodes_eq (h : Accounted s nodes lost) (hkeeps : Keeps s pending listed) :
    nodes = listed.map nodeOf :=
  Option.some.inj (h.holds.toList_eq.symm.trans hkeeps.holds.toList_eq)

/-- A free address is not that of a listed record. -/
theorem Accounted.notMem (h : Accounted s nodes lost) (hkeeps : Keeps s pending listed)
    {tData : Addr} (hfree : s.args tData = none) :
    tData ∉ nodes.map (fun node => node.2.connection) := by
  rw [h.nodes_eq hkeeps]
  intro hmem
  obtain ⟨node, hnode, rfl⟩ := List.mem_map.mp hmem
  obtain ⟨x, hx, rfl⟩ := List.mem_map.mp hnode
  have he : x.2 ∈ pending ++ listed.map Prod.snd :=
    List.mem_append_right _ (List.mem_map_of_mem hx)
  exact (hkeeps.books.live x.2 he).args hfree

/-- No set-up has failed before main's last one. -/
theorem Accounted.nothing_lost (h : Accounted s nodes lost) (hleft : ¬ s.Leaving) : lost = none :=
  by_contra fun hlost => hleft (h.leaving hlost)

/-- A set-up hands its records on to the list, or loses what it has allocated. -/
theorem Accounted.setUp (h : Accounted s nodes lost) (hkeeps : Keeps s pending listed)
    {clientFd : Fd} {res : SetUp} (hpc : s.pc = .setUp clientFd)
    (hset : s.setUp clientFd res = some s') :
    ∃ lost', Accounted s' nodes lost' ∧ (lost' ≠ none ↔ (Turn.main (.setUp res)).Loses) := by
  obtain rfl := h.nothing_lost (by simp [Process.Leaving, hpc])
  have hargs : ∀ p, s.args p ≠ none → p ∈ nodes.map (fun node => node.2.connection) := by
    intro p hp
    rcases h.args p hp with hmem | ⟨q, hins⟩ | hlost
    · exact hmem
    · rw [hpc] at hins
      cases hins
    · cases hlost
  have hhandles : ∀ q, s.handles q ≠ none → q ∈ nodes.map (fun node => node.2.thread) := by
    intro q hq
    rcases h.handles q hq with hmem | ⟨p, hins⟩ | hlost
    · exact hmem
    · rw [hpc] at hins
      cases hins
    · cases hlost
  -- `tData` and `thread` are new, and the others are as they were
  have hnew : ∀ {β : Type} (f : Addr → Option β) (a p : Addr) (b : β),
      Function.update f a (some b) p ≠ none → p = a ∨ f p ≠ none := by
    intro β f a p b hp
    by_cases heq : p = a
    · exact .inl heq
    · rw [Function.update_of_ne heq] at hp
      exact .inr hp
  cases res with
  | noArgs =>
    cases hset
    exact ⟨none, {
      holds := h.holds
      args := fun p hp => .inl (hargs p hp)
      handles := fun q hq => .inl (hhandles q hq)
      lost_args := fun p hp => by cases hp
      leaving := fun hlost => absurd rfl hlost }, fun hlost => absurd rfl hlost, fun hl => hl.elim⟩
  | noThread tData =>
    obtain ⟨m, hm, hset⟩ := Option.bind_eq_some_iff.mp hset
    obtain ⟨hfree, rfl⟩ := newArgs_eq_some hm
    cases hset
    refine ⟨some (tData, none), ?_, fun _ => trivial, fun _ => Option.some_ne_none _⟩
    exact {
      holds := h.holds
      args := fun p hp => (hnew _ _ _ _ hp).elim (fun heq => .inr (.inr (heq ▸ rfl)))
        fun hold => .inl (hargs p hold)
      handles := fun q hq => .inl (hhandles q hq)
      lost_args := fun p hp => by
        obtain rfl := Option.some.inj hp
        exact ⟨by simp, h.notMem hkeeps hfree⟩
      leaving := fun _ => rfl }
  | notCreated tData thread =>
    obtain ⟨m, hm, hset⟩ := Option.bind_eq_some_iff.mp hset
    obtain ⟨m₁, hm₁, hset⟩ := Option.bind_eq_some_iff.mp hset
    obtain ⟨hfree, rfl⟩ := newArgs_eq_some hm
    obtain ⟨-, rfl⟩ := newHandle_eq_some hm₁
    cases hset
    refine ⟨some (tData, some thread), ?_, fun _ => trivial, fun _ => Option.some_ne_none _⟩
    exact {
      holds := h.holds
      args := fun p hp => (hnew _ _ _ _ hp).elim (fun heq => .inr (.inr (heq ▸ rfl)))
        fun hold => .inl (hargs p hold)
      handles := fun q hq => (hnew _ _ _ _ hq).elim (fun heq => .inr (.inr (heq ▸ rfl)))
        fun hold => .inl (hhandles q hold)
      lost_args := fun p hp => by
        obtain rfl := Option.some.inj hp
        exact ⟨by simp, h.notMem hkeeps hfree⟩
      leaving := fun _ => rfl }
  | created tData thread t =>
    obtain ⟨m, hm, hset⟩ := Option.bind_eq_some_iff.mp hset
    obtain ⟨m₁, hm₁, hset⟩ := Option.bind_eq_some_iff.mp hset
    obtain ⟨m₂, hm₂, hset⟩ := Option.bind_eq_some_iff.mp hset
    obtain ⟨hfree, rfl⟩ := newArgs_eq_some hm
    obtain ⟨-, rfl⟩ := newHandle_eq_some hm₁
    obtain ⟨-, rfl⟩ := create_eq_some hm₂
    cases hset
    refine ⟨none, ?_, fun hlost => absurd rfl hlost, fun hl => hl.elim⟩
    exact {
      holds := h.holds
      args := fun p hp => (hnew _ _ _ _ hp).elim (fun heq => .inr (.inl ⟨thread, heq ▸ rfl⟩))
        fun hold => .inl (hargs p hold)
      handles := fun q hq => (hnew _ _ _ _ hq).elim (fun heq => .inr (.inl ⟨tData, heq ▸ rfl⟩))
        fun hold => (hnew _ _ _ _ hold).elim (fun heq => .inr (.inl ⟨tData, heq ▸ rfl⟩))
          fun hold => .inl (hhandles q hold)
      lost_args := fun p hp => by cases hp
      leaving := fun hlost => absurd rfl hlost }

/-- The new thread's records go to its node. -/
theorem Accounted.insert (h : Accounted s nodes lost) {tData thread datap : Addr}
    {l : SList Addr SlistData} (hpc : s.pc = .insert tData thread)
    (hinsert : (s.slist.alloc datap ⟨tData, thread⟩).bind (SList.insertHead · datap) = some l) :
    Accounted { s with slist := l, pc := .loop } ((datap, ⟨tData, thread⟩) :: nodes) none ∧
      lost = none := by
  obtain rfl := h.nothing_lost (by simp [Process.Leaving, hpc])
  have hfree : s.slist.cell datap = none := by
    obtain ⟨l₁, halloc, -⟩ := Option.bind_eq_some_iff.mp hinsert
    rw [SList.alloc] at halloc
    split at halloc
    · assumption
    · cases halloc
  obtain ⟨l', hl', hholds⟩ := h.holds.insert hfree ⟨tData, thread⟩
  obtain rfl := Option.some.inj (hinsert.symm.trans hl')
  refine ⟨?_, rfl⟩
  exact {
    holds := hholds
    args := fun p hp => by
      rcases h.args p hp with hmem | ⟨q, hins⟩ | hlost
      · exact .inl (List.mem_cons_of_mem _ hmem)
      · rw [hpc] at hins
        cases hins
        exact .inl List.mem_cons_self
      · cases hlost
    handles := fun q hq => by
      rcases h.handles q hq with hmem | ⟨p, hins⟩ | hlost
      · exact .inl (List.mem_cons_of_mem _ hmem)
      · rw [hpc] at hins
        cases hins
        exact .inl List.mem_cons_self
      · cases hlost
    lost_args := fun p hp => by cases hp
    leaving := fun hlost => absurd rfl hlost }

/-- Every step of main. -/
theorem Accounted.mainStep (h : Accounted s nodes lost) (hkeeps : Keeps s pending listed)
    {ans : Answer} (hact : MainActs s ans s') :
    ∃ nodes' lost', Accounted s' nodes' lost' ∧
      (lost' ≠ none ↔ lost ≠ none ∨ (Turn.main ans).Loses) := by
  have hplace := hkeeps.place
  have hholds := hkeeps.holds
  have hnodes := h.nodes_eq hkeeps
  unfold Place at hplace
  -- the steps that leave the records alone
  have hsame : ∀ {s' : Process}, ¬ (Turn.main ans).Loses → s'.toRecords = s.toRecords →
      (∀ p q, s.pc ≠ .insert p q) → (s.Leaving → s'.Leaving) →
      ∃ nodes' lost', Accounted s' nodes' lost' ∧
        (lost' ≠ none ↔ lost ≠ none ∨ (Turn.main ans).Loses) := by
    intro s' hno hrecords hinsert hleaving
    refine ⟨nodes, lost, h.congr (by rw [hrecords]) (fun p => by rw [hrecords])
      (fun q => by rw [hrecords]) (fun p q hpc => absurd hpc (hinsert p q)) hleaving, ?_⟩
    exact ⟨.inl, fun hor => hor.resolve_right hno⟩
  cases hact with
  | quits hpc hquit =>
    exact hsame id rfl (by simp [hpc]) fun _ => trivial
  | passStarts hpc hquit =>
    refine hsame id rfl (by simp [hpc]) fun hleaving => ?_
    rw [Process.Leaving, hpc] at hleaving
    rw [hquit] at hleaving
    cases hleaving
  | passEnds hpc => exact hsame id rfl (by simp [hpc]) (by simp [Process.Leaving, hpc])
  | sees hpc hcell hargs hcomplete =>
    exact hsame id rfl (by simp [hpc]) (by simp [Process.Leaving, hpc])
  | keeps hpc hcell hargs hcomplete =>
    exact hsame id rfl (by simp [hpc]) (by simp [Process.Leaving, hpc])
  | joins hpc hjoin =>
    obtain ⟨joined, rfl⟩ := join_frame hjoin
    refine ⟨nodes, lost, h.congr rfl (fun _ => Iff.rfl) (fun _ => Iff.rfl) (by simp [hpc])
      (by simp [Process.Leaving, hpc]), .inl, fun hor => hor.resolve_right id⟩
  | @reaps datap tmp m hpc hreap =>
    rw [hpc] at hplace
    obtain ⟨rfl, done, e, rest, rfl, -, -, -, -⟩ := hplace
    obtain ⟨l, hl, hrest⟩ := unlink_remove hholds
    obtain ⟨l', hl', rfl⟩ := reap_eq_some hholds hreap
    obtain rfl := Option.some.inj (hl.symm.trans hl')
    rw [hnodes, List.map_append, List.map_cons] at h
    rw [List.map_append] at hrest
    refine ⟨_, lost, h.reap hrest rfl rfl (by simp [hpc]) (by simp [Process.Leaving, hpc]), .inl,
      fun hor => hor.resolve_right id⟩
  | acceptFails hpc => exact hsame id rfl (by simp [hpc]) (by simp [Process.Leaving, hpc])
  | accepts hpc hfree => exact hsame id rfl (by simp [hpc]) (by simp [Process.Leaving, hpc])
  | setsUp hpc hset =>
    obtain ⟨lost', h', hiff⟩ := h.setUp hkeeps hpc hset
    have hnone := h.nothing_lost (by simp [Process.Leaving, hpc])
    exact ⟨nodes, lost', h',
      hiff.trans ⟨.inr, fun hor => hor.resolve_left fun hlost => hlost hnone⟩⟩
  | inserts hpc hinsert =>
    obtain ⟨h', hnone⟩ := h.insert hpc hinsert
    refine ⟨_, none, h', fun hlost => absurd rfl hlost, fun hor => ?_⟩
    exact absurd hnone (hor.resolve_right id)
  | empties hpc hempty => exact hsame id rfl (by simp [hpc]) fun _ => trivial
  | closes hpc hfirst hargs => exact hsame id rfl (by simp [hpc]) fun _ => trivial
  | shutdownJoins hpc hjoin =>
    obtain ⟨joined, rfl⟩ := join_frame hjoin
    refine ⟨nodes, lost, h.congr rfl (fun _ => Iff.rfl) (fun _ => Iff.rfl) (by simp [hpc])
      fun _ => trivial, .inl, fun hor => hor.resolve_right id⟩
  | @shutdownReaps datap m hpc hreap =>
    rw [hpc] at hplace
    obtain ⟨rfl, e, rest, rfl, -, -⟩ := hplace
    obtain ⟨l, hl, hrest⟩ := hholds.unlinkHead
    have hsplit : s.slist.Holds (([] ++ (datap, e) :: rest).map nodeOf) := hholds
    obtain ⟨l', hl', rfl⟩ := reap_eq_some hsplit hreap
    obtain rfl := Option.some.inj (hl.symm.trans hl')
    rw [hnodes, List.map_cons, ← List.nil_append (_ :: _)] at h
    refine ⟨_, lost, h.reap hrest rfl rfl (by simp [hpc]) fun _ => trivial, .inl,
      fun hor => hor.resolve_right id⟩
  | destroys hpc => exact hsame id rfl (by simp [hpc]) fun _ => trivial

end Accounts

/-- The accounts behind some steps: a set-up has lost records if one of them was such. -/
def AccountedAfter (turns : List Turn) (s : Process) : Prop :=
  Sound s ∧ ∃ nodes lost, Accounted s nodes lost ∧ (lost ≠ none ↔ ∃ turn ∈ turns, turn.Loses)

theorem AccountedAfter.step {turns : List Turn} {s s' : Process} {turn : Turn} {u : Unit}
    (h : AccountedAfter turns s) (hstep : s.step turn = some (u, s')) :
    AccountedAfter (turns ++ [turn]) s' := by
  obtain ⟨hsound, nodes, lost, h, hiff⟩ := h
  refine ⟨hsound.step hstep, ?_⟩
  have hmore : (∃ turn' ∈ turns ++ [turn], turn'.Loses) ↔
      (∃ turn' ∈ turns, turn'.Loses) ∨ turn.Loses := by
    simp [or_and_right, exists_or]
  rw [hmore, ← hiff]
  obtain ⟨⟨pending, listed, hkeeps⟩, -⟩ := hsound
  cases step_cases hstep with
  | main hact => exact h.mainStep hkeeps hact
  | thread hthread =>
    exact ⟨nodes, lost, h.threadStep hthread, .inl, fun hor => hor.resolve_right id⟩
  | signal =>
    exact ⟨nodes, lost, h.congr rfl (fun _ => Iff.rfl) (fun _ => Iff.rfl) (fun _ _ hpc => hpc)
      Process.Leaving.signal, .inl, fun hor => hor.resolve_right id⟩

theorem run_accounted {taken : Fd → Bool} {turns : List Turn} {us : List Unit} {s : Process}
    (hrun : run Process.step (.start taken) turns = some (us, s)) : AccountedAfter turns s := by
  have hstart : AccountedAfter [] (.start taken) :=
    ⟨sound_start taken, [], none, accounted_start taken, by simp⟩
  have hinv : AccountedAfter ([] ++ turns) s :=
    @run_inv_trace _ _ _ _ (fun turns _ s => AccountedAfter turns s)
      (fun _ _ _ _ _ _ h hstep => h.step hstep) _ _ [] _ [] _ hstart hrun
  exact hinv

/-- When `run_server` has returned no node is live, and the other records that are live are those
    of one set-up at most: one that failed when it had allocated them.  If none did, nothing
    is left. -/
theorem run_server_frees {taken : Fd → Bool} {turns : List Turn} {us : List Unit} {s : Process}
    (hrun : run Process.step (.start taken) turns = some (us, s)) (hret : s.Returned) :
    (∀ datap, s.slist.cell datap = none) ∧
      (∀ p p', s.args p ≠ none → s.args p' ≠ none → p = p') ∧
      (∀ q q', s.handles q ≠ none → s.handles q' ≠ none → q = q') ∧
      ((∃ turn ∈ turns, turn.Loses) ↔ ∃ p, s.args p ≠ none) ∧
      ((∃ q, s.handles q ≠ none) → ∃ p, s.args p ≠ none) := by
  obtain ⟨⟨⟨pending, listed, hkeeps⟩, -⟩, nodes, lost, h, hiff⟩ := run_accounted hrun
  have hnil : nodes = [] := by
    have hplace := hkeeps.place
    unfold Place at hplace
    rw [show s.pc = .returned from hret] at hplace
    rw [h.nodes_eq hkeeps, hplace.2]
    rfl
  subst hnil
  have hargs : ∀ p, s.args p ≠ none → lost.map Prod.fst = some p := by
    intro p hp
    rcases h.args p hp with hmem | ⟨q, hpc⟩ | hlost
    · exact absurd hmem List.not_mem_nil
    · rw [show s.pc = .returned from hret] at hpc
      cases hpc
    · exact hlost
  have hhandles : ∀ q, s.handles q ≠ none → lost.bind Prod.snd = some q := by
    intro q hq
    rcases h.handles q hq with hmem | ⟨p, hpc⟩ | hlost
    · exact absurd hmem List.not_mem_nil
    · rw [show s.pc = .returned from hret] at hpc
      cases hpc
    · exact hlost
  have hlost : lost ≠ none → ∃ p, s.args p ≠ none := by
    intro hne
    obtain ⟨x, rfl⟩ := Option.ne_none_iff_exists'.mp hne
    exact ⟨x.1, (h.lost_args x.1 rfl).1⟩
  refine ⟨fun datap => ?_, fun p p' hp hp' => ?_, fun q q' hq hq' => ?_, ?_, ?_⟩
  · by_contra hlive
    exact absurd (h.holds.mem_of_live datap hlive) List.not_mem_nil
  · exact Option.some.inj ((hargs p hp).symm.trans (hargs p' hp'))
  · exact Option.some.inj ((hhandles q hq).symm.trans (hhandles q' hq'))
  · rw [← hiff]
    refine ⟨hlost, ?_⟩
    rintro ⟨p, hp⟩ rfl
    cases hargs p hp
  · rintro ⟨q, hq⟩
    apply hlost
    rintro rfl
    cases hhandles q hq

/-- A second `pthread_create` that fails, and the end. -/
def createFails : List Turn :=
  newConnection 0 4 100 200 0 300 ++ List.replicate 3 (.main .go) ++
    [.main (.accepted (some 5)), .main (.setUp (.notCreated 101 201)), .main .go, .main .go] ++
    hangsUp 0 6 ++ List.replicate 4 (.main .go)

theorem createFails_frees :
    ∃ us s, run Process.step (.start fun fd => decide (fd < 4)) createFails = some (us, s) ∧
      s.Returned ∧ (∀ datap, s.slist.cell datap = none) ∧ (∃ p, s.args p ≠ none) ∧
      ∀ p p', s.args p ≠ none → s.args p' ≠ none → p = p' := by
  have hend : (run Process.step (.start fun fd => decide (fd < 4)) createFails).map
      (fun r => r.2.pc) = some .returned := rfl
  obtain ⟨⟨us, s⟩, hrun, hret⟩ := Option.map_eq_some_iff.mp hend
  obtain ⟨hnodes, hone, -, hlost, -⟩ := run_server_frees hrun hret
  have hmem : Turn.main (.setUp (.notCreated 101 201)) ∈ createFails := by simp [createFails]
  exact ⟨us, s, hrun, hret, hnodes, hlost.mp ⟨_, hmem, trivial⟩, hone⟩

end Aesd.Server
