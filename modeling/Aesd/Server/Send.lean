/-
  Aesd.Server.Send

  `send_messages` against a socket that accepts what it likes: read up to a
  buffer of bytes from the device, offer them to `send` once, and go on until
  a read returns nothing.

  The number that `send` returns is only tested for an error, so the bytes
  that it did not accept are gone with the next read.  `Replies` is the whole
  loop as a relation on the pieces the device hands out; what those are does
  not depend on the socket (`offered`).
-/
import Aesd.Driver.WriteRuns
import Aesd.Server.Reply

namespace Aesd.Server

open Aesd.Lib
open Aesd.Driver (Byte newline Kernel content committed visible committedTexts vfsBuf)

/-! ## The loop -/

/-- Lines 136 to 141: what was read, or `none` to return -1. -/
def afterRead (ret : Int) : Option Nat :=
  if libcRet ret < 0 then none else some (libcRet ret).toNat

/-- The guards of the two loops: go round again (`none`) or return 0. -/
def sendGuard (bytesRead : Nat) : Option Int :=
  -- a full buffer keeps the inner loop going, anything else the outer one
  if BUFFER_SIZE ≤ bytesRead then none else if 0 < bytesRead then none else some 0

/-- Lines 143 to 151, with the answer of `send`. -/
def afterSend (bytesRead : Nat) : SendResult → Option Int
  | .error => some (-1)
  -- how much was accepted is not looked at
  | .short _ => sendGuard bytesRead

/-- The return value (`none` while the call waits for the next `send`), and the
    bytes that the socket accepted. -/
structure SendRun where
  ret : Option Int
  accepted : List Byte
  deriving DecidableEq, Repr

/-- `send_messages` on the open file `t`, with the answers of `send`. -/
def sendMessages (K : Kernel) (t : Tid) :
    List SendResult → Driver.System → List Byte → Option SendRun
  | [], _, _ => some ⟨none, []⟩
  | res :: rest, s, sendBuffer => do
    let (answer, s) ← Driver.step K s ⟨.read t bufferCount, .calm⟩
    match afterRead answer.ret with
    | none => return ⟨some (-1), []⟩
    | some bytesRead =>
      let sendBuffer := answer.data ++ sendBuffer.drop answer.data.length
      let bytes := sendBuffer.take bytesRead
      match afterSend bytesRead res with
      | some ret => return ⟨some ret, res.accepted bytes⟩
      | none =>
        let run ← sendMessages K t rest s sendBuffer
        return { run with accepted := res.accepted bytes ++ run.accepted }

/-- A connection takes the same decisions. -/
theorem onRead_eq (ret : Int) :
    onRead ret = match afterRead ret with
      | none => failed
      | some bytesRead => .send bytesRead := by
  rw [onRead, afterRead]
  split <;> rfl

theorem onSend_eq (bytesRead : Nat) (res : SendResult) :
    onSend bytesRead res = match afterSend bytesRead res with
      | none => .read
      | some ret => if ret = -1 then failed else succeeded := by
  cases res with
  | error => rfl
  | short unsent =>
    rw [onSend, afterSend, sendGuard]
    by_cases h0 : 0 < bytesRead
    · rw [if_pos h0, if_pos h0, ite_self]
    · have hbuf : ¬ BUFFER_SIZE ≤ bytesRead := by
        have hsize : BUFFER_SIZE = 1024 := rfl
        omega
      rw [if_neg h0, if_neg h0, if_neg hbuf]
      rfl

theorem afterSend_of_pos {bytesRead : Nat} (h : 0 < bytesRead) (unsent : Nat) :
    afterSend bytesRead (.short unsent) = none := by
  rw [afterSend, sendGuard, if_pos h, ite_self]

/-- Nothing is accepted of nothing. -/
theorem accepted_nil (res : SendResult) : res.accepted [] = [] := by
  cases res with
  | error => rfl
  | short unsent => exact List.take_nil

/-! ## What the device hands out -/

/-- What a read of the buffer's size returns at position `p`: the rest of the
    entry that holds it, cut at the size of the buffer. -/
def piece (texts : List (List Byte)) (p : Nat) : List Byte :=
  match locate (texts.map List.length) p with
  | none => []
  | some (i, d) => ((texts[i]?.getD []).drop d).take BUFFER_SIZE

/-- The piece of the `i`-th pass of a loop that starts at position `p`. -/
def offered (texts : List (List Byte)) (p : Nat) : Nat → List Byte
  | 0 => piece texts p
  | i + 1 => offered texts (p + (piece texts p).length) i

theorem piece_committed (J : Journal Byte) (p : Nat) :
    piece (committed J) p = (visible J p).take BUFFER_SIZE := by
  unfold piece visible
  cases locate ((committed J).map List.length) p with
  | none => rfl
  | some f => rfl

/-- A read answers the piece and moves the position behind it. -/
theorem absRead_piece (J : Journal Byte) (p : Nat) :
    Driver.absRead .calm J BUFFER_SIZE p =
        ⟨(piece (committed J) p).length, piece (committed J) p,
          p + (piece (committed J) p).length⟩ ∧
      (content J).drop p = piece (committed J) p ++
        (content J).drop (p + (piece (committed J) p).length) ∧
      (piece (committed J) p = [] ↔ (content J).length ≤ p) ∧
      (piece (committed J) p).length ≤ BUFFER_SIZE := by
  obtain ⟨data, hread, hdrop, hzero, hle⟩ := absRead_calm J p
  have hdata : data = piece (committed J) p := by
    have hcalm : Driver.CallEnv.calm.interrupted = false := rfl
    have hcopied := Driver.absRead_of_copied (J := J) BUFFER_SIZE p hcalm (Nat.zero_min _)
    rw [hread, Int.toNat_natCast] at hcopied
    rw [piece_committed]
    exact congrArg Driver.ReadResult.data hcopied
  rw [← hdata, ← List.length_eq_zero_iff]
  exact ⟨hread, hdrop, hzero, hle⟩

/-- Behind the end nothing more is handed out. -/
theorem offered_of_end {J : Journal Byte} {p : Nat} (h : (content J).length ≤ p) (i : Nat) :
    offered (committed J) p i = [] := by
  have hpiece := (absRead_piece J p).2.2.1.mpr h
  induction i with
  | zero => exact hpiece
  | succ i ih =>
    rw [offered, hpiece]
    exact ih

/-! ## The loop as a relation -/

/-- With the answers `sends`, the loop that starts at position `p` returns `ret`
    after the socket has accepted `acc`. -/
inductive Replies (texts : List (List Byte)) :
    Nat → (Nat → SendResult) → Int → List Byte → Prop where
  | fails {p : Nat} {sends : Nat → SendResult} (h : sends 0 = .error) : Replies texts p sends (-1) []
  | ends {p : Nat} {sends : Nat → SendResult} {unsent : Nat} (h : sends 0 = .short unsent)
    (hend : piece texts p = []) : Replies texts p sends 0 []
  | passes {p : Nat} {sends : Nat → SendResult} {unsent : Nat} {ret : Int} {acc : List Byte}
    (h : sends 0 = .short unsent) (hmore : piece texts p ≠ [])
    (hrest : Replies texts (p + (piece texts p).length) (fun i => sends (i + 1)) ret acc) :
    Replies texts p sends ret ((sends 0).accepted (piece texts p) ++ acc)

/-- The loop always returns: every pass but the last moves the position. -/
theorem replies_total (J : Journal Byte) :
    ∀ m p (sends : Nat → SendResult), (content J).length ≤ p + m →
      ∃ ret acc, Replies (committed J) p sends ret acc := by
  intro m
  induction m with
  | zero =>
    intro p sends hlen
    have hend := (absRead_piece J p).2.2.1.mpr hlen
    cases h : sends 0 with
    | error => exact ⟨_, _, .fails h⟩
    | short unsent => exact ⟨_, _, .ends h hend⟩
  | succ m ih =>
    intro p sends hlen
    cases h : sends 0 with
    | error => exact ⟨_, _, .fails h⟩
    | short unsent =>
      by_cases hend : piece (committed J) p = []
      · exact ⟨_, _, .ends h hend⟩
      · have hpos := List.length_pos_of_ne_nil hend
        obtain ⟨ret, acc, hrest⟩ := ih (p + (piece (committed J) p).length) (fun i => sends (i + 1))
          (by omega)
        exact ⟨_, _, .passes h hend hrest⟩

/-! ## The code follows the relation -/

section Code

variable {K : Kernel} {s : Driver.System} {a : Driver.AbsSystem} {t : Tid} {p : Nat}

/-- A read of the buffer's size, on a device that nobody writes to. -/
theorem step_read_piece (hR : Driver.SystemRep K s a) (hp : a.fPos t = p) :
    ∃ s', Driver.step K s ⟨.read t bufferCount, .calm⟩ =
        some (⟨(piece (committed a.journal) p).length, piece (committed a.journal) p⟩, s') ∧
      Driver.SystemRep K s'
        ⟨a.journal, Driver.setPos a.fPos t
          ((p + (piece (committed a.journal) p).length : Nat) : Int)⟩ := by
  obtain ⟨hread, -, -, -⟩ := absRead_piece a.journal p
  obtain ⟨s', hstep, hrep⟩ := Driver.step_refines (K := K) ⟨.read t bufferCount, .calm⟩ hR trivial
  have hcount : Driver.absRead .calm a.journal bufferCount.val (a.fPos t) =
      Driver.absRead .calm a.journal BUFFER_SIZE p := by
    rw [hp]
    rfl
  have habs : Driver.absStep K a ⟨.read t bufferCount, .calm⟩ =
      (⟨(Driver.absRead .calm a.journal BUFFER_SIZE p).ret,
        (Driver.absRead .calm a.journal BUFFER_SIZE p).data⟩,
      ⟨a.journal, Driver.setPos a.fPos t
        (Driver.absRead .calm a.journal BUFFER_SIZE p).fPos⟩) := by
    rw [← hcount]
    rfl
  rw [habs, hread] at hstep hrep
  exact ⟨s', hstep, hrep⟩

/-- A pass whose read answers with `bytesRead` bytes. -/
theorem sendMessages_of_read {s' : Driver.System} {answer : Driver.Answer} {bytesRead : Nat}
    (hstep : Driver.step K s ⟨.read t bufferCount, .calm⟩ = some (answer, s'))
    (hret : afterRead answer.ret = some bytesRead) (res : SendResult) (rest : List SendResult)
    (sendBuffer : List Byte) :
    sendMessages K t (res :: rest) s sendBuffer =
      let sendBuffer := answer.data ++ sendBuffer.drop answer.data.length
      match afterSend bytesRead res with
      | some ret => some ⟨some ret, res.accepted (sendBuffer.take bytesRead)⟩
      | none => (sendMessages K t rest s' sendBuffer).map fun run =>
          ⟨run.ret, res.accepted (sendBuffer.take bytesRead) ++ run.accepted⟩ := by
  rw [sendMessages, hstep, Option.bind_eq_bind, Option.bind_some]
  dsimp only
  rw [hret]
  dsimp only
  cases afterSend bytesRead res with
  | some ret => rfl
  | none =>
    dsimp only
    rw [Option.map_eq_bind]
    rfl

/-- One pass of the loop. -/
theorem sendMessages_cons (hR : Driver.SystemRep K s a) (hp : a.fPos t = p)
    (sendBuffer : List Byte) :
    ∃ s' sendBuffer',
      Driver.SystemRep K s'
        ⟨a.journal, Driver.setPos a.fPos t
          ((p + (piece (committed a.journal) p).length : Nat) : Int)⟩ ∧
      ∀ res rest, sendMessages K t (res :: rest) s sendBuffer =
        match afterSend (piece (committed a.journal) p).length res with
        | some ret => some ⟨some ret, res.accepted (piece (committed a.journal) p)⟩
        | none => (sendMessages K t rest s' sendBuffer').map fun run =>
            ⟨run.ret, res.accepted (piece (committed a.journal) p) ++ run.accepted⟩ := by
  obtain ⟨-, -, -, hle⟩ := absRead_piece a.journal p
  obtain ⟨s', hstep, hrep⟩ := step_read_piece hR hp
  generalize piece (committed a.journal) p = bytes at hle hstep hrep ⊢
  have hbuf : BUFFER_SIZE = 1024 := rfl
  have hret : libcRet bytes.length = bytes.length := libcRet_of_lt (by omega)
  have hafter : afterRead bytes.length = some bytes.length := by
    rw [afterRead, hret, if_neg (by omega), Int.toNat_natCast]
  refine ⟨s', bytes ++ sendBuffer.drop bytes.length, hrep, fun res rest => ?_⟩
  rw [sendMessages_of_read hstep hafter]
  dsimp only
  rw [List.take_left]

/-- The first `n` answers of the socket. -/
def firstSends (sends : Nat → SendResult) (n : Nat) : List SendResult := (List.range n).map sends

theorem firstSends_succ (sends : Nat → SendResult) (n : Nat) :
    firstSends sends (n + 1) = sends 0 :: firstSends (fun i => sends (i + 1)) n := by
  rw [firstSends, List.range_succ_eq_map, List.map_cons, List.map_map]
  rfl

/-- The code is defined on any number of answers: it waits for more up to some
    pass, and from there on has returned what the relation says. -/
theorem sendMessages_replies {sends : Nat → SendResult} {ret : Int} {acc : List Byte}
    (h : Replies (committed a.journal) p sends ret acc) (hR : Driver.SystemRep K s a)
    (hp : a.fPos t = p) (sendBuffer : List Byte) :
    ∃ N, (∀ n, n < N → ∃ got, sendMessages K t (firstSends sends n) s sendBuffer =
        some ⟨none, got⟩) ∧
      ∀ n, N ≤ n → sendMessages K t (firstSends sends n) s sendBuffer = some ⟨some ret, acc⟩ := by
  generalize hJ : committed a.journal = texts at h
  -- by induction on the passes; each needs one more answer than the rest
  induction h generalizing s a sendBuffer with
  | @fails p sends h =>
    obtain ⟨s', sendBuffer', -, hcons⟩ := sendMessages_cons hR hp sendBuffer
    refine ⟨1, fun n hn => ⟨[], ?_⟩, fun n hn => ?_⟩
    · obtain rfl : n = 0 := by omega
      rfl
    · obtain ⟨n, rfl⟩ := Nat.exists_eq_add_of_le' hn
      rw [firstSends_succ, hcons, h]
      rfl
  | @ends p sends unsent h hend =>
    obtain ⟨s', sendBuffer', -, hcons⟩ := sendMessages_cons hR hp sendBuffer
    refine ⟨1, fun n hn => ⟨[], ?_⟩, fun n hn => ?_⟩
    · obtain rfl : n = 0 := by omega
      rfl
    · obtain ⟨n, rfl⟩ := Nat.exists_eq_add_of_le' hn
      have hlast : afterSend ([] : List Byte).length (.short unsent) = some 0 := rfl
      rw [firstSends_succ, hcons, h, hJ, hend, hlast, accepted_nil]
  | @passes p sends unsent ret acc h hmore hrest ih =>
    obtain ⟨s', sendBuffer', hR', hcons⟩ := sendMessages_cons hR hp sendBuffer
    rw [hJ] at hR'
    have hpos : Driver.setPos a.fPos t ((p + (piece texts p).length : Nat) : Int) t =
        ((p + (piece texts p).length : Nat) : Int) := Function.update_self ..
    obtain ⟨N, hwait, hdone⟩ := ih hR' hpos sendBuffer' hJ
    -- a pass that delivered something is followed by another one
    have hagain : afterSend (piece texts p).length (sends 0) = none := by
      rw [h]
      exact afterSend_of_pos (List.length_pos_of_ne_nil hmore) unsent
    refine ⟨N + 1, fun n hn => ?_, fun n hn => ?_⟩
    · cases n with
      | zero => exact ⟨[], rfl⟩
      | succ n =>
        obtain ⟨got, hgot⟩ := hwait n (by omega)
        refine ⟨(sends 0).accepted (piece texts p) ++ got, ?_⟩
        rw [firstSends_succ, hcons, hJ, hagain]
        dsimp only
        rw [hgot, Option.map_some]
    · cases n with
      | zero => omega
      | succ n =>
        rw [firstSends_succ, hcons, hJ, hagain]
        dsimp only
        rw [hdone n (by omega), Option.map_some]

end Code

/-! ## When the reply is complete -/

/-- For the answers `sends`, the call is always defined, returns at some point,
    and if it returns 0 the socket has accepted exactly `goal`. -/
structure ReplyComplete (K : Kernel) (t : Tid) (s : Driver.System) (sendBuffer : List Byte)
    (sends : Nat → SendResult) (goal : List Byte) : Prop where
  is_defined : ∀ n, ∃ r, sendMessages K t (firstSends sends n) s sendBuffer = some r
  terminates : ∃ n r, sendMessages K t (firstSends sends n) s sendBuffer = some r ∧ r.ret ≠ none
  complete : ∀ n r, sendMessages K t (firstSends sends n) s sendBuffer = some r →
    r.ret = some 0 → r.accepted = goal

section Condition

variable {J : Journal Byte} {p : Nat} {sends : Nat → SendResult}

/-- The loop gets to a pass in which `send` fails. -/
def ErrorReached (texts : List (List Byte)) (p : Nat) (sends : Nat → SendResult) : Prop :=
  ∃ i, sends i = .error ∧ ∀ j, j < i → offered texts p j ≠ []

/-- Every `send` accepts all it is offered. -/
def AllAccepted (texts : List (List Byte)) (p : Nat) (sends : Nat → SendResult) : Prop :=
  ∀ i, (sends i).accepted (offered texts p i) = offered texts p i

theorem errorReached_of_short {texts : List (List Byte)} {unsent : Nat}
    (h : sends 0 = .short unsent) :
    ErrorReached texts p sends ↔ piece texts p ≠ [] ∧
      ErrorReached texts (p + (piece texts p).length) (fun i => sends (i + 1)) := by
  refine ⟨?_, ?_⟩
  · rintro ⟨i, hi, hbefore⟩
    cases i with
    | zero => rw [h] at hi; cases hi
    | succ i =>
      exact ⟨hbefore 0 (Nat.succ_pos i), i, hi, fun j hj => hbefore (j + 1) (Nat.succ_lt_succ hj)⟩
  · rintro ⟨hmore, i, hi, hbefore⟩
    refine ⟨i + 1, hi, fun j hj => ?_⟩
    cases j with
    | zero => exact hmore
    | succ j => exact hbefore j (Nat.lt_of_succ_lt_succ hj)

theorem allAccepted_iff {texts : List (List Byte)} :
    AllAccepted texts p sends ↔ (sends 0).accepted (piece texts p) = piece texts p ∧
      AllAccepted texts (p + (piece texts p).length) (fun i => sends (i + 1)) := by
  refine ⟨?_, ?_⟩
  · intro h
    exact ⟨h 0, fun i => h (i + 1)⟩
  · rintro ⟨h0, hrest⟩ i
    cases i with
    | zero => exact h0
    | succ i => exact hrest i

/-- The socket accepts at most what it is offered. -/
theorem accepted_length_le (res : SendResult) (bytes : List Byte) :
    (res.accepted bytes).length ≤ bytes.length := by
  cases res with
  | error => exact Nat.zero_le _
  | short unsent =>
    rw [SendResult.accepted, List.length_take]
    omega

/-- How the loop ends: with -1 if it gets to an error; else with 0, and then
    the socket has the readable bytes from `p` on if no pass lost any. -/
theorem replies_outcome {ret : Int} {acc : List Byte} (h : Replies (committed J) p sends ret acc) :
    ret = -1 ∧ ErrorReached (committed J) p sends ∨
      ret = 0 ∧ ¬ ErrorReached (committed J) p sends ∧
        acc.length ≤ ((content J).drop p).length ∧
        (acc = (content J).drop p ↔ AllAccepted (committed J) p sends) := by
  generalize hJ : committed J = texts at h
  induction h with
  | @fails p sends h =>
    exact .inl ⟨rfl, 0, h, fun j hj => absurd hj (Nat.not_lt_zero j)⟩
  | @ends p sends unsent h hend =>
    rw [← hJ] at hend ⊢
    have hlen := (absRead_piece J p).2.2.1.mp hend
    have hnone : (content J).drop p = [] := List.drop_of_length_le hlen
    refine .inr ⟨rfl, ?_, Nat.zero_le _, ?_⟩
    · rw [errorReached_of_short h]
      exact fun herr => herr.1 hend
    · rw [hnone, iff_true_left rfl]
      intro i
      rw [offered_of_end hlen, accepted_nil]
  | @passes p sends unsent ret acc h hmore hrest ih =>
    rw [errorReached_of_short h, and_iff_right hmore, allAccepted_iff, ← hJ]
    rw [← hJ] at ih
    refine ih.imp id fun ⟨hret, hno, hle, hiff⟩ => ⟨hret, hno, ?_⟩
    -- the readable bytes are those of this pass and those of the rest
    obtain ⟨-, hdrop, -, -⟩ := absRead_piece J p
    have hacc := accepted_length_le (sends 0) (piece (committed J) p)
    rw [hdrop, ← hiff, List.length_append, List.length_append]
    refine ⟨by omega, fun heq => ?_, fun ⟨hfirst, hrest⟩ => by rw [hfirst, hrest]⟩
    have hlen := congrArg List.length heq
    rw [List.length_append, List.length_append] at hlen
    exact List.append_inj heq (by omega)

end Condition

/-- In every reachable state and from every position the reply is complete
    exactly if the loop gets to an error, or every `send` accepts all it is offered. -/
theorem sendMessages_complete_iff {K : Kernel} {calls : List Driver.Call}
    {outs : List Driver.Answer} {s : Driver.System}
    (hrun : run (Driver.step K) .init calls = some (outs, s)) :
    ∃ texts, committedTexts s.driver = some texts ∧
      ∀ t (p : Nat) sendBuffer sends, p < 2 ^ 63 →
        (ReplyComplete K t ⟨s.driver, Driver.setPos s.fPos t p⟩ sendBuffer sends
            (texts.flatten.drop p) ↔
          ErrorReached texts p sends ∨ AllAccepted texts p sends) := by
  obtain ⟨-, -, hrep⟩ := Driver.run_refines hrun
  refine ⟨_, hrep.driver.texts.1, fun t p sendBuffer sends hp => ?_⟩
  have hR := hrep.setPos t (p := p) ⟨Int.natCast_nonneg p, by omega⟩
  obtain ⟨ret, acc, h⟩ := replies_total (Driver.absAfter K calls).journal
    (content (Driver.absAfter K calls).journal).length p sends (Nat.le_add_left _ _)
  have hpos : Driver.setPos (Driver.absAfter K calls).fPos t p t = p := Function.update_self ..
  obtain ⟨N, hwait, hdone⟩ := sendMessages_replies
    (a := ⟨(Driver.absAfter K calls).journal, Driver.setPos (Driver.absAfter K calls).fPos t p⟩)
    h hR hpos sendBuffer
  have hgoal : ReplyComplete K t ⟨s.driver, Driver.setPos s.fPos t p⟩ sendBuffer sends
      ((content (Driver.absAfter K calls).journal).drop p) ↔
      (ret = 0 → acc = (content (Driver.absAfter K calls).journal).drop p) := by
    refine ⟨?_, ?_⟩
    · intro hc hret
      exact hc.complete N _ (hdone N (Nat.le_refl N)) (congrArg some hret)
    · intro hret
      refine { is_defined := fun n => ?_, terminates := ⟨N, _, hdone N (Nat.le_refl N), ?_⟩,
               complete := fun n r hr h0 => ?_ }
      · rcases Nat.lt_or_ge n N with hn | hn
        · obtain ⟨got, hgot⟩ := hwait n hn
          exact ⟨_, hgot⟩
        · exact ⟨_, hdone n hn⟩
      · exact Option.some_ne_none ret
      · rcases Nat.lt_or_ge n N with hn | hn
        · obtain ⟨got, hgot⟩ := hwait n hn
          obtain rfl := Option.some.inj (hgot.symm.trans hr)
          cases h0
        · obtain rfl := Option.some.inj ((hdone n hn).symm.trans hr)
          exact hret (Option.some.inj h0)
  rw [content] at hgoal
  rw [hgoal]
  rcases replies_outcome h with ⟨hret, herr⟩ | ⟨hret, hno, -, hiff⟩
  · rw [iff_true_right (.inl herr)]
    intro h0
    rw [hret] at h0
    exact absurd h0 (by decide)
  · rw [content] at hiff
    rw [← hiff]
    simp [hret, hno]

/-- A device with one line of two bytes. -/
def shortLine : List Driver.Call := [⟨.write 0 (vfsBuf [97, newline]), .calm⟩]

theorem shortLine_defined :
    ∃ s, run (Driver.step .page) .init shortLine = some ([⟨2, []⟩], s) ∧
      Driver.SystemRep .page s ⟨⟨[[97, newline]], []⟩, fun _ => 0⟩ := by
  have hall : Allowed (Driver.absStep .page) (Driver.Defined .page) .init shortLine := by
    simp [shortLine, Allowed, Driver.Defined, Driver.NoLastByte]
  obtain ⟨s, hrun, hrep⟩ := Driver.run_defined hall
  exact ⟨s, hrun, hrep⟩

/-- The first `send` accepts one byte of two, the others all. -/
def firstShort : Nat → SendResult
  | 0 => .short 1
  | _ => .short 0

theorem firstShort_replies : Replies [[97, newline]] 0 firstShort 0 [97] := by
  have hfirst : firstShort 0 = .short 1 := rfl
  have hsecond : firstShort 1 = .short 0 := rfl
  -- a pass that loses the newline, and one that finds nothing more
  exact .passes hfirst (by decide) (.ends hsecond (by decide))

/-- The call returns 0 and the newline is lost. -/
theorem firstShort_loses_bytes :
    ∃ s n, run (Driver.step .page) .init shortLine = some ([⟨2, []⟩], s) ∧
      committedTexts s.driver = some [[97, newline]] ∧
      sendMessages .page 1 (firstSends firstShort n) ⟨s.driver, Driver.setPos s.fPos 1 0⟩ [] =
        some ⟨some 0, [97]⟩ ∧
      ¬ ReplyComplete .page 1 ⟨s.driver, Driver.setPos s.fPos 1 0⟩ [] firstShort
        ([[97, newline]].flatten.drop 0) := by
  obtain ⟨s, hrun, hrep⟩ := shortLine_defined
  have hpos : Driver.IsPos 0 := ⟨Int.le_refl 0, Int.pow_pos (by decide)⟩
  have hR := hrep.setPos 1 hpos
  have hstart : Driver.setPos (fun _ => 0) 1 0 1 = ((0 : Nat) : Int) := Function.update_self ..
  obtain ⟨N, -, hdone⟩ := sendMessages_replies
    (a := ⟨⟨[[97, newline]], []⟩, Driver.setPos (fun _ => 0) 1 0⟩) (t := 1) firstShort_replies hR
    hstart []
  have hsend := hdone N (Nat.le_refl N)
  refine ⟨s, N, hrun, hrep.driver.texts.1, hsend, fun hc => ?_⟩
  exact absurd (hc.complete N _ hsend rfl) (by decide)

theorem shortLine_complete :
    ∃ s, run (Driver.step .page) .init shortLine = some ([⟨2, []⟩], s) ∧
      ReplyComplete .page 1 ⟨s.driver, Driver.setPos s.fPos 1 (0 : Nat)⟩ [] (fun _ => .short 0)
        [97, newline] := by
  obtain ⟨s, hrun, hrep⟩ := shortLine_defined
  obtain ⟨texts, htexts, hiff⟩ := sendMessages_complete_iff hrun
  obtain rfl := Option.some.inj (htexts.symm.trans hrep.driver.texts.1)
  refine ⟨s, hrun, (hiff 1 0 [] (fun _ => .short 0) (Nat.pow_pos (by decide))).mpr (.inr ?_)⟩
  intro i
  exact List.take_of_length_le (Nat.le_refl _)

end Aesd.Server
