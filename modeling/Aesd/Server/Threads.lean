/-
  Aesd.Server.Threads

  Main's books about the threads: at every point between two passes of the main
  loop the list has one node for each thread that is created and not joined,
  a pass takes out the nodes that it saw complete and no others, every thread
  is joined once, and no thread runs without its arguments or the mutex.

  `Books` is what the records of the threads satisfy wherever main is, `Place`
  is what main's place adds to it: which threads are in the list already, how
  far the pass has come, and which joined thread still has its records.
-/
import Aesd.Server.Main

namespace Aesd.Server

open Aesd.Lib

/-! ## Entries -/

/-- A thread that main still has records of: its arguments, its `pthread_t`, and itself. -/
structure Entry where
  connection : Addr
  thread : Addr
  worker : Tid

def Entry.data (e : Entry) : SlistData := ⟨e.connection, e.thread⟩

/-- The records of an entry are live and belong together. -/
structure Entry.Live (m : Records) (e : Entry) : Prop where
  handle : m.handles e.thread = some (some e.worker)
  args : m.args e.connection ≠ none
  runs : ∃ th, m.threads e.worker = some th ∧ th.connectionData = e.connection

/-- The threads that main has records of are `es`: no two share a record, and they are
    the threads that were created, but for some that have been joined. -/
structure Books (m : Records) (es : List Entry) : Prop where
  live : ∀ e ∈ es, e.Live m
  connections : (es.map Entry.connection).Nodup
  handles : (es.map Entry.thread).Nodup
  workers : (es.map Entry.worker).Nodup
  created_iff : ∀ t, t ∈ m.created ↔ t ∈ m.joined ∨ t ∈ es.map Entry.worker
  mem_created : ∀ t th, m.threads t = some th → t ∈ m.created
  joined_nodup : m.joined.Nodup
  returned : ∀ t ∈ m.joined, ∃ th, m.threads t = some th ∧ th.Returned

theorem books_start : Books .start [] where
  live := by simp
  connections := List.nodup_nil
  handles := List.nodup_nil
  workers := List.nodup_nil
  created_iff := by simp [Records.start]
  mem_created := by simp [Records.start]
  joined_nodup := List.nodup_nil
  returned := by simp [Records.start]

section Updates

variable {m : Records} {es : List Entry}

/-- The nodes are no matter of the books. -/
theorem Books.setList (h : Books m es) (l : SList Addr SlistData) :
    Books { m with slist := l } es :=
  { h with live := fun e he => ⟨(h.live e he).handle, (h.live e he).args, (h.live e he).runs⟩ }

/-- A step of a thread. -/
theorem Books.setThread (h : Books m es) {t : Tid} {th th' : Thread} (ht : m.threads t = some th)
    (hleft : ¬ th.Returned) (hdata : th'.connectionData = th.connectionData)
    (a : ConnectionThreadArgs) : Books (m.setThread t th' a) es where
  live e he := by
    obtain ⟨hhandle, hargs, th₁, hth₁, hconn⟩ := h.live e he
    refine ⟨hhandle, ?_, ?_⟩
    · -- no argument is freed
      show Function.update m.args th'.connectionData (some a) e.connection ≠ none
      by_cases heq : e.connection = th'.connectionData
      · simp [heq]
      · rwa [Function.update_of_ne heq]
    · show ∃ th₂, Function.update m.threads t (some th') e.worker = some th₂ ∧ _
      by_cases heq : e.worker = t
      · rw [heq, Function.update_self]
        obtain rfl := Option.some.inj (ht.symm.trans (heq ▸ hth₁))
        exact ⟨th', rfl, hdata.trans hconn⟩
      · rw [Function.update_of_ne heq]
        exact ⟨th₁, hth₁, hconn⟩
  connections := h.connections
  handles := h.handles
  workers := h.workers
  created_iff := h.created_iff
  mem_created u th₁ hu := by
    by_cases heq : u = t
    · exact heq ▸ h.mem_created t th ht
    · exact h.mem_created u th₁ ((Function.update_of_ne heq ..).symm.trans hu)
  joined_nodup := h.joined_nodup
  returned u hu := by
    obtain ⟨th₁, hth₁, hret⟩ := h.returned u hu
    have hne : u ≠ t := by
      rintro rfl
      obtain rfl := Option.some.inj (ht.symm.trans hth₁)
      exact hleft hret
    exact ⟨th₁, (Function.update_of_ne hne ..).trans hth₁, hret⟩

theorem newArgs_eq_some {m' : Records} {p : Addr} {a : ConnectionThreadArgs}
    (h : m.newArgs p a = some m') :
    m.args p = none ∧ m' = { m with args := Function.update m.args p (some a) } := by
  unfold Records.newArgs at h
  split at h
  case h_1 hfree => exact ⟨hfree, (Option.some.inj h).symm⟩
  case h_2 => cases h

theorem newHandle_eq_some {m' : Records} {q : Addr} (h : m.newHandle q = some m') :
    m.handles q = none ∧ m' = { m with handles := Function.update m.handles q (some none) } := by
  unfold Records.newHandle at h
  split at h
  case h_1 hfree => exact ⟨hfree, (Option.some.inj h).symm⟩
  case h_2 => cases h

theorem create_eq_some {m' : Records} {p q : Addr} {t : Tid} (h : m.create p q t = some m') :
    m.threads t = none ∧ m' = { m with
      handles := Function.update m.handles q (some (some t))
      threads := Function.update m.threads t (some (.start p))
      created := m.created ++ [t] } := by
  unfold Records.create at h
  split at h
  case h_1 hfree => exact ⟨hfree, (Option.some.inj h).symm⟩
  case h_2 => cases h

/-- A thread that is not joined has an entry. -/
theorem Books.exists_entry (h : Books m es) {t : Tid} {th : Thread} (hth : m.threads t = some th)
    (hnot : t ∉ m.joined) :
    ∃ e ∈ es, e.worker = t ∧ e.connection = th.connectionData := by
  have hmem := ((h.created_iff t).mp (h.mem_created t th hth)).resolve_left hnot
  obtain ⟨e, he, rfl⟩ := List.mem_map.mp hmem
  obtain ⟨-, -, th', hth', hconn⟩ := h.live e he
  obtain rfl := Option.some.inj (hth.symm.trans hth')
  exact ⟨e, he, rfl, hconn.symm⟩

/-- A thread that has not returned is not joined. -/
theorem Books.notMem_joined (h : Books m es) {t : Tid} {th : Thread} (hth : m.threads t = some th)
    (hleft : ¬ th.Returned) : t ∉ m.joined := by
  intro ht
  obtain ⟨th', hth', hret⟩ := h.returned t ht
  obtain rfl := Option.some.inj (hth.symm.trans hth')
  exact hleft hret

/-- Threads that are not joined have arguments of their own. -/
theorem Books.data_inj (h : Books m es) {t u : Tid} {th th' : Thread}
    (hth : m.threads t = some th) (hnot : t ∉ m.joined) (hth' : m.threads u = some th')
    (hnot' : u ∉ m.joined) (hdata : th.connectionData = th'.connectionData) : t = u := by
  obtain ⟨e, he, rfl, hconn⟩ := h.exists_entry hth hnot
  obtain ⟨e', he', rfl, hconn'⟩ := h.exists_entry hth' hnot'
  rw [List.inj_on_of_nodup_map h.connections he he' (hconn.trans (hdata.trans hconn'.symm))]

/-- A live record is not at a free address. -/
theorem Books.connection_ne (h : Books m es) {p : Addr} (hfree : m.args p = none) {e : Entry}
    (he : e ∈ es) : e.connection ≠ p := by
  rintro rfl
  exact (h.live e he).args hfree

theorem Books.thread_ne (h : Books m es) {q : Addr} (hfree : m.handles q = none) {e : Entry}
    (he : e ∈ es) : e.thread ≠ q := by
  rintro rfl
  have hhandle := (h.live e he).handle
  rw [hfree] at hhandle
  cases hhandle

/-- New arguments, which belong to no thread. -/
theorem Books.newArgs (h : Books m es) {m' : Records} {p : Addr} {a : ConnectionThreadArgs}
    (hnew : m.newArgs p a = some m') : Books m' es := by
  obtain ⟨hfree, rfl⟩ := newArgs_eq_some hnew
  refine { h with live := fun e he => ⟨(h.live e he).handle, ?_, (h.live e he).runs⟩ }
  show Function.update m.args p (some a) e.connection ≠ none
  rw [Function.update_of_ne (h.connection_ne hfree he)]
  exact (h.live e he).args

/-- A new `pthread_t`. -/
theorem Books.newHandle (h : Books m es) {m' : Records} {q : Addr}
    (hnew : m.newHandle q = some m') : Books m' es := by
  obtain ⟨hfree, rfl⟩ := newHandle_eq_some hnew
  refine { h with live := fun e he => ⟨?_, (h.live e he).args, (h.live e he).runs⟩ }
  show Function.update m.handles q (some none) e.thread = some (some e.worker)
  rw [Function.update_of_ne (h.thread_ne hfree he)]
  exact (h.live e he).handle

theorem Books.threads_eq_none (h : Books m es) {t : Tid} (hfree : m.threads t = none) {e : Entry}
    (he : e ∈ es) : e.worker ≠ t := by
  rintro rfl
  obtain ⟨th, hth, -⟩ := (h.live e he).runs
  rw [hfree] at hth
  cases hth

/-- A new thread, with records that belong to no other. -/
theorem Books.create (h : Books m es) {m' : Records} {p q : Addr} {t : Tid}
    (hargs : m.args p ≠ none) (hp : ∀ e ∈ es, e.connection ≠ p) (hq : ∀ e ∈ es, e.thread ≠ q)
    (hnew : m.create p q t = some m') : Books m' (⟨p, q, t⟩ :: es) := by
  obtain ⟨hfree, rfl⟩ := create_eq_some hnew
  have ht := fun e he => h.threads_eq_none hfree (e := e) he
  have hne : ∀ u th, m.threads u = some th → u ≠ t := by
    rintro u th hu rfl
    rw [hfree] at hu
    cases hu
  exact {
    live := by
      intro e he
      rcases List.mem_cons.mp he with rfl | he
      · exact ⟨Function.update_self .., hargs, .start p, Function.update_self .., rfl⟩
      · obtain ⟨hhandle, hlive, th, hth, hconn⟩ := h.live e he
        refine ⟨?_, hlive, th, ?_, hconn⟩
        · exact (Function.update_of_ne (hq e he) ..).trans hhandle
        · exact (Function.update_of_ne (ht e he) ..).trans hth
    connections := List.nodup_cons.mpr ⟨by simpa using hp, h.connections⟩
    handles := List.nodup_cons.mpr ⟨by simpa using hq, h.handles⟩
    workers := List.nodup_cons.mpr ⟨by simpa using ht, h.workers⟩
    created_iff := by
      intro u
      rw [List.mem_append, List.mem_singleton, h.created_iff, List.map_cons, List.mem_cons]
      tauto
    mem_created := by
      intro u th hu
      by_cases heq : u = t
      · simp [heq]
      · exact List.mem_append_left _
          (h.mem_created u th ((Function.update_of_ne heq ..).symm.trans hu))
    joined_nodup := h.joined_nodup
    returned := by
      intro u hu
      obtain ⟨th, hth, hret⟩ := h.returned u hu
      exact ⟨th, (Function.update_of_ne (hne u th hth) ..).trans hth, hret⟩ }

/-- A thread that has returned is joined. -/
theorem Books.join (h : Books m es) {e : Entry} (he : e ∈ es) (hnew : e.worker ∉ m.joined)
    {th : Thread} (hth : m.threads e.worker = some th) (hret : th.Returned) :
    Books { m with joined := m.joined ++ [e.worker] } es :=
  { h with
    live := fun e he => ⟨(h.live e he).handle, (h.live e he).args, (h.live e he).runs⟩
    created_iff := by
      intro u
      have hmem : e.worker ∈ es.map Entry.worker := List.mem_map_of_mem he
      rw [List.mem_append, List.mem_singleton, h.created_iff]
      refine ⟨?_, ?_⟩
      · tauto
      · rintro ((hu | rfl) | hu)
        · exact .inl hu
        · exact .inr hmem
        · exact .inr hu
    joined_nodup := by
      rw [List.nodup_append]
      refine ⟨h.joined_nodup, List.nodup_singleton _, ?_⟩
      rintro u hu v hv rfl
      exact hnew (List.mem_singleton.mp hv ▸ hu)
    returned := by
      intro u hu
      rcases List.mem_append.mp hu with hu | hu
      · exact h.returned u hu
      · obtain rfl := List.mem_singleton.mp hu
        exact ⟨th, hth, hret⟩ }

/-- The records of a joined thread are given back. -/
theorem Books.reap {xs ys : List Entry} {e : Entry} (h : Books m (xs ++ e :: ys))
    (hjoined : e.worker ∈ m.joined) (l : SList Addr SlistData) :
    Books { m with
      handles := Function.update m.handles e.thread none
      args := Function.update m.args e.connection none
      slist := l } (xs ++ ys) := by
  have hsplit : ∀ {β : Type} (f : Entry → β), ((xs ++ e :: ys).map f).Nodup →
      f e ∉ (xs ++ ys).map f ∧ ((xs ++ ys).map f).Nodup := by
    intro β f hf
    rw [List.map_append, List.map_cons, List.nodup_middle, List.nodup_cons,
      ← List.map_append] at hf
    exact hf
  have hmem : ∀ e' ∈ xs ++ ys, e' ∈ xs ++ e :: ys := by
    intro e' he'
    simp only [List.mem_append, List.mem_cons] at he' ⊢
    tauto
  obtain ⟨hc, hcs⟩ := hsplit Entry.connection h.connections
  obtain ⟨ht, hts⟩ := hsplit Entry.thread h.handles
  exact { h with
    live := by
      intro e' he'
      obtain ⟨hhandle, hlive, hruns⟩ := h.live e' (hmem e' he')
      have hthread : e'.thread ≠ e.thread := fun heq => ht (heq ▸ List.mem_map_of_mem he')
      have hconn : e'.connection ≠ e.connection := fun heq => hc (heq ▸ List.mem_map_of_mem he')
      refine ⟨(Function.update_of_ne hthread ..).trans hhandle, ?_, hruns⟩
      show Function.update m.args e.connection none e'.connection ≠ none
      rwa [Function.update_of_ne hconn]
    connections := hcs
    handles := hts
    workers := (hsplit Entry.worker h.workers).2
    created_iff := by
      intro u
      rw [h.created_iff, List.map_append, List.map_append, List.map_cons, List.mem_append,
        List.mem_append, List.mem_cons]
      refine ⟨?_, ?_⟩
      · rintro (hu | hu | rfl | hu)
        · exact .inl hu
        · exact .inr (.inl hu)
        · exact .inl hjoined
        · exact .inr (.inr hu)
      · tauto }

end Updates

/-! ## The list -/

/-- The node of a listed entry, with its data. -/
def nodeOf (x : Addr × Entry) : Addr × SlistData := (x.1, x.2.data)

section Listed

variable {m : Records} {done rest : List (Addr × Entry)} {datap : Addr} {e : Entry}

/-- The node of a listed entry leads to the next one. -/
theorem cell_of_listed (h : m.slist.Holds ((done ++ (datap, e) :: rest).map nodeOf)) :
    m.slist.cell datap = some ⟨e.data, SList.link (rest.map nodeOf)⟩ := by
  rw [List.map_append, List.map_cons] at h
  exact h.cell_eq

/-- A join waits for the thread of the node. -/
theorem join_eq_some (h : m.slist.Holds ((done ++ (datap, e) :: rest).map nodeOf))
    (hlive : e.Live m) {m' : Records} (hjoin : m.join datap = some m') :
    ∃ th, m.threads e.worker = some th ∧ th.Returned ∧
      m' = { m with joined := m.joined ++ [e.worker] } := by
  obtain ⟨th, hth, -⟩ := hlive.runs
  have hhandle : m.handles e.data.thread = some (some e.worker) := hlive.handle
  simp only [Records.join, cell_of_listed h, hhandle, hth, Option.bind_eq_bind,
    Option.bind_some] at hjoin
  split at hjoin
  case isTrue hret => exact ⟨th, hth, hret, (Option.some.inj hjoin).symm⟩
  case isFalse => cases hjoin

/-- What is given back are the records of the node's thread. -/
theorem reap_eq_some (h : m.slist.Holds ((done ++ (datap, e) :: rest).map nodeOf))
    {unlink : SList Addr SlistData → Option (SList Addr SlistData)} {m' : Records}
    (hreap : m.reap datap unlink = some m') :
    ∃ l, (unlink m.slist).bind (SList.free · datap) = some l ∧ m' = { m with
      handles := Function.update m.handles e.thread none
      args := Function.update m.args e.connection none
      slist := l } := by
  obtain ⟨c, hcell, hreap⟩ := Option.bind_eq_some_iff.mp hreap
  obtain ⟨handle, -, hreap⟩ := Option.bind_eq_some_iff.mp hreap
  obtain ⟨a, -, hreap⟩ := Option.bind_eq_some_iff.mp hreap
  obtain ⟨l, hl, hreap⟩ := Option.bind_eq_some_iff.mp hreap
  obtain rfl := Option.some.inj (hcell.symm.trans (cell_of_listed h))
  exact ⟨l, hl, (Option.some.inj hreap).symm⟩

end Listed

/-! ## Where main is -/

/-- None of these threads has been joined. -/
def Unjoined (m : Records) (es : List Entry) : Prop := ∀ e ∈ es, e.worker ∉ m.joined

/-- The pass has kept `xs`: what it found but for the nodes it saw complete. -/
def Process.Kept (s : Process) (xs : List (Addr × Entry)) : Prop :=
  ∃ before, s.pass = some before ∧
    xs.map nodeOf = before.filter fun x => decide (x.1 ∉ s.sawComplete)

/-- What main's place says about the threads: `pending` are created and not in the list
    yet, `listed` are in it. -/
def Place (s : Process) (pending : List Entry) (listed : List (Addr × Entry)) : Prop :=
  match s.pc with
  | .loop => pending = [] ∧ Unjoined s.toRecords (listed.map Prod.snd)
  | .visit datap => pending = [] ∧ Unjoined s.toRecords (listed.map Prod.snd) ∧ s.Kept listed ∧
      ∃ done rest, listed = done ++ rest ∧ datap = SList.link (rest.map nodeOf)
  | .join datap tmp => pending = [] ∧ Unjoined s.toRecords (listed.map Prod.snd) ∧
      ∃ done e rest, listed = done ++ (datap, e) :: rest ∧ s.Kept (done ++ rest) ∧
        tmp = SList.link (rest.map nodeOf)
  | .reap datap tmp => pending = [] ∧
      ∃ done e rest, listed = done ++ (datap, e) :: rest ∧ s.Kept (done ++ rest) ∧
        tmp = SList.link (rest.map nodeOf) ∧ e.worker ∈ s.joined ∧
        Unjoined s.toRecords ((done ++ rest).map Prod.snd)
  | .accept => pending = [] ∧ Unjoined s.toRecords (listed.map Prod.snd) ∧ s.Kept listed
  | .setUp _ => pending = [] ∧ Unjoined s.toRecords (listed.map Prod.snd) ∧ 0 < s.accepts
  | .insert tData thread => (∃ t, pending = [⟨tData, thread, t⟩]) ∧
      Unjoined s.toRecords (pending ++ listed.map Prod.snd)
  | .shutdown => pending = [] ∧ Unjoined s.toRecords (listed.map Prod.snd)
  | .shutdownJoin datap => pending = [] ∧ Unjoined s.toRecords (listed.map Prod.snd) ∧
      ∃ e rest, listed = (datap, e) :: rest
  | .shutdownReap datap => pending = [] ∧ ∃ e rest, listed = (datap, e) :: rest ∧
      e.worker ∈ s.joined ∧ Unjoined s.toRecords (rest.map Prod.snd)
  | .destroy => pending = [] ∧ listed = []
  | .returned => pending = [] ∧ listed = []

/-- The invariant of the process. -/
structure Keeps (s : Process) (pending : List Entry) (listed : List (Addr × Entry)) : Prop where
  books : Books s.toRecords (pending ++ listed.map Prod.snd)
  holds : s.slist.Holds (listed.map nodeOf)
  place : Place s pending listed

theorem keeps_start (taken : Fd → Bool) : Keeps (.start taken) [] [] where
  books := books_start
  holds := SList.holds_empty
  place := ⟨rfl, by simp [Unjoined]⟩

/-- A step of a thread. -/
theorem Keeps.threadStep {s s' : Process} {pending : List Entry} {listed : List (Addr × Entry)}
    (h : Keeps s pending listed) {t : Tid} {o : Outcome} {fd : Fd}
    (hstep : s.threadStep t o fd = some s') : Keeps s' pending listed := by
  obtain ⟨th, a, act, c, s₁, hth, -, hc, hperform, rfl⟩ := threadStep_eq_some hstep
  obtain ⟨fileMutex, fds, closes, rfl, -⟩ := perform_eq_some hperform
  have hleft : ¬ th.Returned := not_returned_of_step hc
  have hdata : (th.after c fd act).connectionData = th.connectionData := rfl
  exact ⟨h.books.setThread hth hleft hdata (a.after c), h.holds, h.place⟩

/-! ## The steps of main -/

section Main

variable {m m' : Records} {pending : List Entry} {listed done rest : List (Addr × Entry)}
  {datap : Addr} {e : Entry}

theorem unjoined_split (h : Unjoined m ((done ++ (datap, e) :: rest).map Prod.snd)) :
    e.worker ∉ m.joined ∧ Unjoined m ((done ++ rest).map Prod.snd) := by
  simp only [Unjoined, List.map_append, List.map_cons, List.mem_append, List.mem_cons] at h ⊢
  exact ⟨h e (.inr (.inl rfl)), fun e' he' => h e' (he'.imp_right .inr)⟩

/-- The thread of a node is joined: it alone. -/
theorem Books.joinListed (h : Books m ((done ++ (datap, e) :: rest).map Prod.snd))
    (hholds : m.slist.Holds ((done ++ (datap, e) :: rest).map nodeOf))
    (hunjoined : Unjoined m ((done ++ (datap, e) :: rest).map Prod.snd))
    (hjoin : m.join datap = some m') :
    Books m' ((done ++ (datap, e) :: rest).map Prod.snd) ∧ m'.slist = m.slist ∧
      e.worker ∈ m'.joined ∧ Unjoined m' ((done ++ rest).map Prod.snd) := by
  have he : e ∈ (done ++ (datap, e) :: rest).map Prod.snd := by simp
  obtain ⟨hnew, hothers⟩ := unjoined_split hunjoined
  obtain ⟨th, hth, hret, rfl⟩ := join_eq_some hholds (h.live e he) hjoin
  refine ⟨h.join he hnew hth hret, rfl, by simp, fun e' he' hmem => ?_⟩
  rcases List.mem_append.mp hmem with hmem | hmem
  · exact hothers e' he' hmem
  · -- no other entry is of the same thread
    have hnodup := h.workers
    rw [List.map_append, List.map_cons, List.map_append, List.map_cons, List.nodup_middle,
      List.nodup_cons, ← List.map_append, ← List.map_append] at hnodup
    exact hnodup.1 (List.mem_singleton.mp hmem ▸ List.mem_map_of_mem he')

/-- A joined thread's node is taken out, and its records are given back. -/
theorem Books.reapListed (h : Books m ((done ++ (datap, e) :: rest).map Prod.snd))
    (hholds : m.slist.Holds ((done ++ (datap, e) :: rest).map nodeOf))
    (hjoined : e.worker ∈ m.joined)
    {unlink : SList Addr SlistData → Option (SList Addr SlistData)}
    (hunlink : ∃ l, (unlink m.slist).bind (SList.free · datap) = some l ∧
      l.Holds ((done ++ rest).map nodeOf))
    (hreap : m.reap datap unlink = some m') :
    Books m' ((done ++ rest).map Prod.snd) ∧ m'.slist.Holds ((done ++ rest).map nodeOf) ∧
      m'.joined = m.joined := by
  obtain ⟨l, hl, hrest⟩ := hunlink
  obtain ⟨l', hl', rfl⟩ := reap_eq_some hholds hreap
  obtain rfl := Option.some.inj (hl.symm.trans hl')
  rw [List.map_append, List.map_cons] at h
  have hbooks := h.reap hjoined l
  rw [← List.map_append] at hbooks
  exact ⟨hbooks, hrest, rfl⟩

/-- `SLIST_REMOVE` finds the node wherever it is. -/
theorem unlink_remove (h : m.slist.Holds ((done ++ (datap, e) :: rest).map nodeOf)) :
    ∃ l, (m.slist.remove datap).bind (SList.free · datap) = some l ∧
      l.Holds ((done ++ rest).map nodeOf) := by
  rw [List.map_append, List.map_cons] at h
  rw [List.map_append]
  exact h.unlink

variable {s s' : Process}

/-- What was set up, or what is left of it when a call failed. -/
theorem Keeps.setUp {clientFd : Fd} {res : SetUp} (h : Keeps s pending listed)
    (hpc : s.pc = .setUp clientFd) (hset : s.setUp clientFd res = some s') :
    ∃ pending', Keeps s' pending' listed := by
  obtain ⟨hbooks, hholds, hplace⟩ := h
  unfold Place at hplace
  rw [hpc] at hplace
  obtain ⟨rfl, hunjoined, -⟩ := hplace
  cases res with
  | noArgs =>
    cases hset
    exact ⟨[], hbooks, hholds, rfl, hunjoined⟩
  | noThread tData =>
    obtain ⟨m, hargs, hset⟩ := Option.bind_eq_some_iff.mp hset
    cases hset
    have hbooks' := hbooks.newArgs hargs
    obtain ⟨-, rfl⟩ := newArgs_eq_some hargs
    exact ⟨[], hbooks', hholds, rfl, hunjoined⟩
  | notCreated tData thread =>
    obtain ⟨m, hargs, hset⟩ := Option.bind_eq_some_iff.mp hset
    obtain ⟨m₁, hhandle, hset⟩ := Option.bind_eq_some_iff.mp hset
    cases hset
    have hbooks' := (hbooks.newArgs hargs).newHandle hhandle
    obtain ⟨-, rfl⟩ := newArgs_eq_some hargs
    obtain ⟨-, rfl⟩ := newHandle_eq_some hhandle
    exact ⟨[], hbooks', hholds, rfl, hunjoined⟩
  | created tData thread t =>
    obtain ⟨m, hargs, hset⟩ := Option.bind_eq_some_iff.mp hset
    obtain ⟨m₁, hhandle, hset⟩ := Option.bind_eq_some_iff.mp hset
    obtain ⟨m₂, hcreate, hset⟩ := Option.bind_eq_some_iff.mp hset
    cases hset
    have hbooks₁ := hbooks.newArgs hargs
    have hthread := fun e he => hbooks₁.thread_ne (newHandle_eq_some hhandle).1 (e := e) he
    have hbooks₂ := hbooks₁.newHandle hhandle
    obtain ⟨hfree, rfl⟩ := newArgs_eq_some hargs
    obtain ⟨-, rfl⟩ := newHandle_eq_some hhandle
    have hconn := fun e he => hbooks.connection_ne hfree (e := e) he
    have hbooks₃ := hbooks₂.create (by simp) hconn hthread hcreate
    obtain ⟨hnew, rfl⟩ := create_eq_some hcreate
    refine ⟨[⟨tData, thread, t⟩], hbooks₃, hholds, ⟨t, rfl⟩, fun e he => ?_⟩
    rcases List.mem_cons.mp he with rfl | he
    · -- a thread that has been joined is no new one
      intro hjoined
      obtain ⟨th, hth, -⟩ := hbooks.returned t hjoined
      exact absurd (hnew.symm.trans hth) (by simp)
    · exact hunjoined e he

/-- A node for the new thread. -/
theorem Keeps.insert {tData thread : Addr} (h : Keeps s pending listed)
    (hpc : s.pc = .insert tData thread) {l : SList Addr SlistData}
    (hinsert : (s.slist.alloc datap ⟨tData, thread⟩).bind (SList.insertHead · datap) = some l) :
    ∃ listed', Keeps { s with slist := l, pc := .loop } [] listed' := by
  obtain ⟨hbooks, hholds, hplace⟩ := h
  unfold Place at hplace
  rw [hpc] at hplace
  obtain ⟨⟨t, rfl⟩, hunjoined⟩ := hplace
  obtain ⟨l₁, halloc, -⟩ := Option.bind_eq_some_iff.mp hinsert
  have hfree : s.slist.cell datap = none := by
    unfold SList.alloc at halloc
    split at halloc
    case h_1 hfree => exact hfree
    case h_2 => cases halloc
  obtain ⟨l', hl', hholds'⟩ := hholds.insert hfree ⟨tData, thread⟩
  obtain rfl := Option.some.inj (hl'.symm.trans hinsert)
  exact ⟨(datap, ⟨tData, thread, t⟩) :: listed, hbooks.setList l', hholds', rfl, hunjoined⟩

/-- A node that is seen complete is the one that the pass does not keep. -/
theorem kept_saw (hholds : s.slist.Holds ((done ++ (datap, e) :: rest).map nodeOf))
    (h : s.Kept (done ++ (datap, e) :: rest)) (pc : MainPc) :
    { s with pc := pc, sawComplete := s.sawComplete ++ [datap] }.Kept (done ++ rest) := by
  obtain ⟨before, hpass, hkept⟩ := h
  have hnodup := hholds.nodup
  rw [List.map_append, List.map_cons, List.map_append, List.map_cons, List.nodup_middle,
    List.nodup_cons, List.mem_append, not_or] at hnodup
  obtain ⟨⟨hdone, hrest⟩, -⟩ := hnodup
  have hother : ∀ xs : List (Addr × Entry), datap ∉ (xs.map nodeOf).map Prod.fst →
      (xs.map nodeOf).filter (fun x => decide (x.1 ≠ datap)) = xs.map nodeOf := by
    intro xs hxs
    refine List.filter_eq_self.mpr fun x hx => decide_eq_true ?_
    rintro rfl
    exact hxs (List.mem_map_of_mem hx)
  have hfilter : before.filter (fun x => decide (x.1 ∉ s.sawComplete ++ [datap])) =
      (before.filter fun x => decide (x.1 ∉ s.sawComplete)).filter
        fun x => decide (x.1 ≠ datap) := by
    rw [List.filter_filter]
    apply List.filter_congr
    intro x _
    simp [and_comm]
  refine ⟨before, hpass, Eq.symm ?_⟩
  calc before.filter (fun x => decide (x.1 ∉ s.sawComplete ++ [datap]))
      = ((done ++ (datap, e) :: rest).map nodeOf).filter (fun x => decide (x.1 ≠ datap)) := by
        rw [hfilter, hkept]
    _ = done.map nodeOf ++ rest.map nodeOf := by
        rw [List.map_append, List.map_cons, List.filter_append, hother done hdone,
          List.filter_cons_of_neg (by simp [nodeOf]), hother rest hrest]
    _ = (done ++ rest).map nodeOf := (List.map_append ..).symm

/-- A link leads to the first of the entries behind it. -/
theorem eq_cons_of_link (h : some datap = SList.link (listed.map nodeOf)) :
    ∃ e rest, listed = (datap, e) :: rest := by
  cases listed with
  | nil => cases h
  | cons x rest =>
    obtain rfl := Option.some.inj h
    exact ⟨x.2, rest, rfl⟩

/-- Every step of main keeps the invariant. -/
theorem Keeps.mainStep {ans : Answer} (h : Keeps s pending listed) (hact : MainActs s ans s') :
    ∃ pending' listed', Keeps s' pending' listed' := by
  have hbooks := h.books
  have hholds := h.holds
  have hplace := h.place
  unfold Place at hplace
  cases hact with
  | quits hpc hquit =>
    rw [hpc] at hplace
    exact ⟨pending, listed, hbooks, hholds, hplace⟩
  | passStarts hpc hquit =>
    rw [hpc] at hplace
    obtain ⟨rfl, hunjoined⟩ := hplace
    refine ⟨[], listed, hbooks, hholds, rfl, hunjoined, ⟨_, hholds.toList_eq, ?_⟩, [], listed,
      rfl, hholds.first_eq⟩
    simp
  | passEnds hpc =>
    rw [hpc] at hplace
    obtain ⟨rfl, hunjoined, hkept, -⟩ := hplace
    exact ⟨[], listed, hbooks, hholds, rfl, hunjoined, hkept⟩
  | sees hpc hcell hargs hcomplete =>
    rw [hpc] at hplace
    obtain ⟨rfl, hunjoined, hkept, done, rest, rfl, hlink⟩ := hplace
    obtain ⟨e, rest, rfl⟩ := eq_cons_of_link hlink
    obtain rfl := Option.some.inj (hcell.symm.trans (cell_of_listed hholds))
    exact ⟨[], _, hbooks, hholds, rfl, hunjoined, done, e, rest, rfl, kept_saw hholds hkept _, rfl⟩
  | @keeps datap c a hpc hcell hargs hcomplete =>
    rw [hpc] at hplace
    obtain ⟨rfl, hunjoined, hkept, done, rest, rfl, hlink⟩ := hplace
    obtain ⟨e, rest, rfl⟩ := eq_cons_of_link hlink
    obtain rfl := Option.some.inj (hcell.symm.trans (cell_of_listed hholds))
    -- the node is behind the pass now
    exact ⟨[], _, hbooks, hholds, rfl, hunjoined, hkept, done ++ [(datap, e)], rest,
      by simp, rfl⟩
  | joins hpc hjoin =>
    rw [hpc] at hplace
    obtain ⟨rfl, hunjoined, done, e, rest, rfl, hkept, htmp⟩ := hplace
    obtain ⟨hbooks', hlist, hjoined, hothers⟩ := hbooks.joinListed hholds hunjoined hjoin
    rw [← hlist] at hholds
    exact ⟨[], _, hbooks', hholds, rfl, done, e, rest, rfl, hkept, htmp, hjoined, hothers⟩
  | reaps hpc hreap =>
    rw [hpc] at hplace
    obtain ⟨rfl, done, e, rest, rfl, hkept, htmp, hjoined, hothers⟩ := hplace
    obtain ⟨hbooks', hholds', hsame⟩ :=
      hbooks.reapListed hholds hjoined (unlink_remove hholds) hreap
    rw [Unjoined, ← hsame] at hothers
    exact ⟨[], done ++ rest, hbooks', hholds', rfl, hothers, hkept, done, rest, rfl, htmp⟩
  | acceptFails hpc =>
    rw [hpc] at hplace
    obtain ⟨rfl, hunjoined, -⟩ := hplace
    exact ⟨[], listed, hbooks, hholds, rfl, hunjoined⟩
  | accepts hpc hfree =>
    rw [hpc] at hplace
    obtain ⟨rfl, hunjoined, -⟩ := hplace
    exact ⟨[], listed, hbooks, hholds, rfl, hunjoined, Nat.succ_pos _⟩
  | setsUp hpc hset =>
    obtain ⟨pending', h'⟩ := h.setUp hpc hset
    exact ⟨pending', listed, h'⟩
  | inserts hpc hinsert =>
    obtain ⟨listed', h'⟩ := h.insert hpc hinsert
    exact ⟨[], listed', h'⟩
  | empties hpc hempty =>
    rw [hpc] at hplace
    obtain ⟨rfl, -⟩ := hplace
    have hnil : listed = [] := by
      cases listed with
      | nil => rfl
      | cons x listed => exact absurd (hempty.symm.trans hholds.first_eq) (by simp)
    exact ⟨[], listed, hbooks, hholds, rfl, hnil⟩
  | closes hpc hfirst hargs =>
    rw [hpc] at hplace
    obtain ⟨rfl, hunjoined⟩ := hplace
    obtain ⟨e, rest, rfl⟩ := eq_cons_of_link (hfirst.symm.trans hholds.first_eq)
    exact ⟨[], _, hbooks, hholds, rfl, hunjoined, e, rest, rfl⟩
  | @shutdownJoins datap m hpc hjoin =>
    rw [hpc] at hplace
    obtain ⟨rfl, hunjoined, e, rest, rfl⟩ := hplace
    have hsplit : Books s.toRecords (([] ++ (datap, e) :: rest).map Prod.snd) := hbooks
    obtain ⟨hbooks', hlist, hjoined, hothers⟩ := hsplit.joinListed hholds hunjoined hjoin
    rw [← hlist] at hholds
    exact ⟨[], (datap, e) :: rest, hbooks', hholds, rfl, e, rest, rfl, hjoined, hothers⟩
  | @shutdownReaps datap m hpc hreap =>
    rw [hpc] at hplace
    obtain ⟨rfl, e, rest, rfl, hjoined, hothers⟩ := hplace
    have hsplit : Books s.toRecords (([] ++ (datap, e) :: rest).map Prod.snd) := hbooks
    obtain ⟨hbooks', hholds', hsame⟩ :=
      hsplit.reapListed hholds hjoined hholds.unlinkHead hreap
    rw [Unjoined, ← hsame] at hothers
    exact ⟨[], rest, hbooks', hholds', rfl, hothers⟩
  | destroys hpc =>
    rw [hpc] at hplace
    exact ⟨pending, listed, hbooks, hholds, hplace⟩

end Main

/-! ## Runs -/

/-- Main destroys the mutex as its last act. -/
theorem MainActs.mutex {s s' : Process} {ans : Answer} (h : MainActs s ans s') :
    s.pc ≠ .returned ∧ (s'.fileMutex = s.fileMutex ∨ s'.pc = .returned) := by
  cases h with
  | setsUp hpc hset =>
    obtain ⟨m, pc, quit, rfl⟩ := setUp_eq_some hset
    exact ⟨by simp [hpc], .inl rfl⟩
  | destroys hpc => exact ⟨by simp [hpc], .inr rfl⟩
  | quits hpc hquit => exact ⟨by simp [hpc], .inl rfl⟩
  | passStarts hpc hquit => exact ⟨by simp [hpc], .inl rfl⟩
  | passEnds hpc => exact ⟨by simp [hpc], .inl rfl⟩
  | sees hpc hcell hargs hcomplete => exact ⟨by simp [hpc], .inl rfl⟩
  | keeps hpc hcell hargs hcomplete => exact ⟨by simp [hpc], .inl rfl⟩
  | joins hpc hjoin => exact ⟨by simp [hpc], .inl rfl⟩
  | reaps hpc hreap => exact ⟨by simp [hpc], .inl rfl⟩
  | acceptFails hpc => exact ⟨by simp [hpc], .inl rfl⟩
  | accepts hpc hfree => exact ⟨by simp [hpc], .inl rfl⟩
  | inserts hpc hinsert => exact ⟨by simp [hpc], .inl rfl⟩
  | empties hpc hempty => exact ⟨by simp [hpc], .inl rfl⟩
  | closes hpc hfirst hargs => exact ⟨by simp [hpc], .inl rfl⟩
  | shutdownJoins hpc hjoin => exact ⟨by simp [hpc], .inl rfl⟩
  | shutdownReaps hpc hreap => exact ⟨by simp [hpc], .inl rfl⟩

/-- The invariant, with the lists left open. -/
structure Sound (s : Process) : Prop where
  keeps : ∃ pending listed, Keeps s pending listed
  mutex : s.fileMutex = .destroyed → s.pc = .returned

theorem sound_start (taken : Fd → Bool) : Sound (.start taken) :=
  ⟨⟨[], [], keeps_start taken⟩, FileMutex.noConfusion⟩

theorem Sound.step {s s' : Process} {turn : Turn} {u : Unit} (h : Sound s)
    (hstep : s.step turn = some (u, s')) : Sound s' := by
  obtain ⟨⟨pending, listed, hkeeps⟩, hmutex⟩ := h
  cases step_cases hstep with
  | main hact =>
    refine ⟨hkeeps.mainStep hact, fun hd => ?_⟩
    obtain ⟨hleft, hsame | hret⟩ := hact.mutex
    · exact absurd (hmutex (hsame.symm.trans hd)) hleft
    · exact hret
  | thread hthread =>
    have hkeeps' := hkeeps.threadStep hthread
    obtain ⟨th, a, act, c, s₁, -, -, -, hperform, rfl⟩ := threadStep_eq_some hthread
    obtain ⟨fileMutex, fds, closes, rfl, hsame⟩ := perform_eq_some hperform
    exact ⟨⟨pending, listed, hkeeps'⟩, fun hd => hmutex (hsame hd)⟩
  | signal => exact ⟨⟨pending, listed, hkeeps.books, hkeeps.holds, hkeeps.place⟩, hmutex⟩

theorem run_sound {taken : Fd → Bool} {turns : List Turn} {us : List Unit} {s : Process}
    (hrun : run Process.step (.start taken) turns = some (us, s)) : Sound s :=
  run_inv (fun _ _ _ _ h hstep => h.step hstep) (sound_start taken) hrun

/-! ## The books are right -/

/-- The thread that a node's `pthread_t` names. -/
def Process.threadOf (s : Process) (node : Addr × SlistData) : Option Tid :=
  (s.handles node.2.thread).join

/-- The threads whose nodes are in the list. -/
def Process.listedThreads (s : Process) : Option (List Tid) :=
  s.slist.toList.bind fun nodes => nodes.mapM s.threadOf

/-- What main's books come to. -/
structure Bookkeeping (s : Process) : Prop where
  -- between two iterations of the main loop
  listed : s.pc = .loop → ∃ ts, s.listedThreads = some ts ∧ ts.Nodup ∧
    ∀ t, t ∈ ts ↔ t ∈ s.created ∧ t ∉ s.joined
  -- at the end of a reaping pass
  reaped : s.pc = .accept → ∃ before after, s.pass = some before ∧ s.slist.toList = some after ∧
    after = before.filter fun node => decide (node.1 ∉ s.sawComplete)
  joined_once : s.joined.Nodup
  joined_all : s.Returned → ∀ t, t ∈ s.created ↔ t ∈ s.joined
  alive : ∀ t th, s.threads t = some th → ¬ th.Returned →
    s.args th.connectionData ≠ none ∧ s.fileMutex ≠ .destroyed

theorem mapM_threadOf {s : Process} {listed : List (Addr × Entry)}
    (h : ∀ e ∈ listed.map Prod.snd, e.Live s.toRecords) :
    (listed.map nodeOf).mapM s.threadOf = some ((listed.map Prod.snd).map Entry.worker) := by
  induction listed with
  | nil => rfl
  | cons x listed ih =>
    rw [List.map_cons, List.forall_mem_cons] at h
    have hhandle : s.handles (nodeOf x).2.thread = some (some x.2.worker) := h.1.handle
    have hhead : s.threadOf (nodeOf x) = some x.2.worker := by
      rw [Process.threadOf, hhandle, Option.join_some]
    rw [List.map_cons, List.mapM_cons, hhead, ih h.2]
    rfl

theorem Sound.bookkeeping {s : Process} (h : Sound s) : Bookkeeping s := by
  obtain ⟨⟨pending, listed, hbooks, hholds, hplace⟩, hmutex⟩ := h
  unfold Place at hplace
  exact {
    listed := by
      intro hpc
      rw [hpc] at hplace
      obtain ⟨rfl, hunjoined⟩ := hplace
      refine ⟨_, ?_, hbooks.workers, fun t => ?_⟩
      · rw [Process.listedThreads, hholds.toList_eq, Option.bind_some]
        exact mapM_threadOf hbooks.live
      · rw [hbooks.created_iff]
        refine ⟨?_, ?_⟩
        · intro ht
          obtain ⟨e, he, rfl⟩ := List.mem_map.mp ht
          exact ⟨.inr ht, hunjoined e he⟩
        · rintro ⟨hjoined | ht, hnot⟩
          · exact absurd hjoined hnot
          · exact ht
    reaped := by
      intro hpc
      rw [hpc] at hplace
      obtain ⟨-, -, before, hpass, hkept⟩ := hplace
      exact ⟨before, _, hpass, hholds.toList_eq, hkept⟩
    joined_once := hbooks.joined_nodup
    joined_all := by
      intro hret t
      rw [show s.pc = .returned from hret] at hplace
      obtain ⟨rfl, rfl⟩ := hplace
      rw [hbooks.created_iff]
      simp
    alive := by
      intro t th hth hleft
      obtain ⟨e, he, -, hconn⟩ := hbooks.exists_entry hth (hbooks.notMem_joined hth hleft)
      have hargs := (hbooks.live e he).args
      refine ⟨hconn ▸ hargs, fun hd => ?_⟩
      -- the mutex goes when nobody is left
      rw [hmutex hd] at hplace
      obtain ⟨rfl, rfl⟩ := hplace
      simp at he }

/-- Main keeps its books, however the calls answer, in whatever order main, the
    threads and the signal come. -/
theorem run_server_bookkeeping {taken : Fd → Bool} {turns : List Turn} {us : List Unit}
    {s : Process} (hrun : run Process.step (.start taken) turns = some (us, s)) : Bookkeeping s :=
  (run_sound hrun).bookkeeping

/-! ## Main goes on -/

section Defined

variable {m : Records} {done rest : List (Addr × Entry)} {datap : Addr} {e : Entry}

theorem connection_defined (h : m.slist.Holds ((done ++ (datap, e) :: rest).map nodeOf))
    (hlive : e.Live m) : ∃ a, m.connection datap = some a := by
  obtain ⟨a, ha⟩ := Option.ne_none_iff_exists'.mp hlive.args
  have ha' : m.args e.data.connection = some a := ha
  refine ⟨a, ?_⟩
  simp only [Records.connection, cell_of_listed h, ha', Option.bind_eq_bind, Option.bind_some]

theorem reap_defined (h : m.slist.Holds ((done ++ (datap, e) :: rest).map nodeOf))
    (hlive : e.Live m) {unlink : SList Addr SlistData → Option (SList Addr SlistData)}
    (hunlink : ∃ l, (unlink m.slist).bind (SList.free · datap) = some l ∧
      l.Holds ((done ++ rest).map nodeOf)) : ∃ m', m.reap datap unlink = some m' := by
  obtain ⟨l, hl, -⟩ := hunlink
  obtain ⟨a, ha⟩ := Option.ne_none_iff_exists'.mp hlive.args
  have ha' : m.args e.data.connection = some a := ha
  have hhandle : m.handles e.data.thread = some (some e.worker) := hlive.handle
  rw [← Option.isSome_iff_exists]
  simp only [Records.reap, cell_of_listed h, ha', hhandle, hl, Option.bind_eq_bind,
    Option.bind_some, Option.isSome_some]

/-- The thread of the node at `datap` has not returned yet. -/
def Records.Unfinished (m : Records) (datap : Addr) : Prop :=
  ∃ c t th, m.slist.cell datap = some c ∧ m.handles c.data.thread = some (some t) ∧
    m.threads t = some th ∧ ¬ th.Returned

theorem join_defined (h : m.slist.Holds ((done ++ (datap, e) :: rest).map nodeOf))
    (hlive : e.Live m) : m.Unfinished datap ∨ ∃ m', m.join datap = some m' := by
  obtain ⟨th, hth, -⟩ := hlive.runs
  have hhandle : m.handles e.data.thread = some (some e.worker) := hlive.handle
  by_cases hret : th.Returned
  · right
    rw [← Option.isSome_iff_exists]
    simp only [Records.join, cell_of_listed h, hhandle, hth, Option.bind_eq_bind,
      Option.bind_some, if_pos hret, Option.isSome_some]
  · exact .inl ⟨_, e.worker, th, cell_of_listed h, hhandle, hth, hret⟩

end Defined

/-- Main waits in `pthread_join` for a thread. -/
def Process.Waits (s : Process) : Prop :=
  ∃ datap, ((∃ tmp, s.pc = .join datap tmp) ∨ s.pc = .shutdownJoin datap) ∧ s.Unfinished datap

/-- Main follows no pointer to a record that is gone: until it has returned, all that
    can hold it up is a thread that it joins. -/
theorem Sound.goes_on {s : Process} (h : Sound s) :
    s.Returned ∨ s.Waits ∨ ∃ ans s', s.mainStep ans = some s' := by
  obtain ⟨⟨pending, listed, hbooks, hholds, hplace⟩, -⟩ := h
  unfold Place at hplace
  have hlive : ∀ done datap e rest, listed = done ++ (datap, e) :: rest → e.Live s.toRecords := by
    rintro done datap e rest rfl
    exact hbooks.live e (by simp)
  have hgo : ∀ {ans s'}, MainActs s ans s' →
      s.Returned ∨ s.Waits ∨ ∃ ans s', s.mainStep ans = some s' :=
    fun hact => .inr (.inr ⟨_, _, hact.mainStep_eq⟩)
  cases hpc : s.pc with
  | loop =>
    cases hquit : s.quit with
    | true => exact hgo (.quits hpc hquit)
    | false => exact hgo (.passStarts hpc hquit)
  | visit datap =>
    rw [hpc] at hplace
    obtain ⟨rfl, -, -, done, rest, rfl, hlink⟩ := hplace
    cases datap with
    | none => exact hgo (.passEnds hpc)
    | some datap =>
      obtain ⟨e, rest, rfl⟩ := eq_cons_of_link hlink
      obtain ⟨a, ha⟩ := connection_defined hholds (hlive done datap e rest rfl)
      cases hcomplete : a.threadComplete with
      | true => exact hgo (.sees hpc (cell_of_listed hholds) ha hcomplete)
      | false => exact hgo (.keeps hpc (cell_of_listed hholds) ha hcomplete)
  | join datap tmp =>
    rw [hpc] at hplace
    obtain ⟨rfl, -, done, e, rest, rfl, -⟩ := hplace
    rcases join_defined hholds (hlive done datap e rest rfl) with hwait | ⟨m', hjoin⟩
    · exact .inr (.inl ⟨datap, .inl ⟨tmp, hpc⟩, hwait⟩)
    · exact hgo (.joins hpc hjoin)
  | reap datap tmp =>
    rw [hpc] at hplace
    obtain ⟨rfl, done, e, rest, rfl, -⟩ := hplace
    have hreap : ∃ m', s.reap datap (SList.remove · datap) = some m' :=
      reap_defined hholds (hlive done datap e rest rfl) (unlink_remove hholds)
    obtain ⟨m', hreap⟩ := hreap
    exact hgo (.reaps hpc hreap)
  | accept => exact hgo (.acceptFails hpc)
  | setUp clientFd =>
    have hset : s.setUp clientFd .noArgs = some _ := rfl
    exact hgo (.setsUp hpc hset)
  | insert tData thread =>
    obtain ⟨datap, hfree⟩ := hholds.exists_free
    obtain ⟨l, hinsert, -⟩ := hholds.insert hfree ⟨tData, thread⟩
    exact hgo (.inserts hpc hinsert)
  | shutdown =>
    cases hfirst : s.slist.first with
    | none => exact hgo (.empties hpc hfirst)
    | some datap =>
      obtain ⟨e, rest, rfl⟩ := eq_cons_of_link (hfirst.symm.trans hholds.first_eq)
      have hsplit : s.slist.Holds (([] ++ (datap, e) :: rest).map nodeOf) := hholds
      obtain ⟨a, ha⟩ := connection_defined hsplit (hlive [] datap e rest rfl)
      exact hgo (.closes hpc hfirst ha)
  | shutdownJoin datap =>
    rw [hpc] at hplace
    obtain ⟨rfl, -, e, rest, rfl⟩ := hplace
    have hsplit : s.slist.Holds (([] ++ (datap, e) :: rest).map nodeOf) := hholds
    rcases join_defined hsplit (hlive [] datap e rest rfl) with hwait | ⟨m', hjoin⟩
    · exact .inr (.inl ⟨datap, .inr hpc, hwait⟩)
    · exact hgo (.shutdownJoins hpc hjoin)
  | shutdownReap datap =>
    rw [hpc] at hplace
    obtain ⟨rfl, e, rest, rfl, -⟩ := hplace
    have hsplit : s.slist.Holds (([] ++ (datap, e) :: rest).map nodeOf) := hholds
    obtain ⟨m', hreap⟩ := reap_defined hsplit (hlive [] datap e rest rfl) hholds.unlinkHead
    exact hgo (.shutdownReaps hpc hreap)
  | destroy => exact hgo (.destroys hpc)
  | returned => exact .inl hpc

/-! ## A run -/

/-- The way out of a thread whose client hangs up at once. -/
def hangsUp (t : Tid) (fd : Fd) : List Turn :=
  [.thread t .go 0, .thread t .go 0, .thread t (.opened true) fd, .thread t (.received .closed none) 0,
    .thread t .go 0, .thread t .go 0, .thread t .go 0, .thread t .go 0, .thread t .go 0]

/-- A pass over `n` nodes that are not complete, and a new connection. -/
def newConnection (n : Nat) (clientFd : Fd) (tData thread : Addr) (t : Tid) (datap : Addr) :
    List Turn :=
  List.replicate (n + 2) (.main .go) ++
    [.main (.accepted (some clientFd)), .main (.setUp (.created tData thread t)),
      .main (.node datap)]

/-- Two clients; the first one's thread is reaped from the end of the list, and the
    second one's is running when the signal arrives. -/
def reapThenQuit : List Turn :=
  newConnection 0 4 100 200 0 300 ++ newConnection 1 5 101 201 1 301 ++ hangsUp 0 6 ++
    List.replicate 6 (.main .go) ++ [.signal, .main (.accepted none)] ++
    List.replicate 2 (.main .go) ++ hangsUp 1 4 ++ List.replicate 4 (.main .go)

theorem reapThenQuit_bookkeeping :
    ∃ us s, run Process.step (.start fun fd => decide (fd < 4)) reapThenQuit = some (us, s) ∧
      s.pc = .returned ∧ s.joined = [0, 1] ∧ Bookkeeping s := by
  have hend : (run Process.step (.start fun fd => decide (fd < 4)) reapThenQuit).map
      (fun r => (r.2.pc, r.2.joined)) = some (.returned, [0, 1]) := rfl
  obtain ⟨⟨us, s⟩, hrun, heq⟩ := Option.map_eq_some_iff.mp hend
  obtain ⟨hpc, hjoined⟩ := Prod.mk.inj heq
  exact ⟨us, s, hrun, hpc, hjoined, run_server_bookkeeping hrun⟩

end Aesd.Server
