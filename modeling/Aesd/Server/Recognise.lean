/-
  Aesd.Server.Recognise

  Which chunks the parser takes for a seek command, and on which it stays
  inside its arrays.

  The parser only looks for three separators, so what it does is decided by
  the way they cut the chunk (`Delimited`): where they do not, the answer is -1
  or the scan leaves the buffer (`check_of_not_delimited`); where they do, it
  copies what lies between them into arrays of ten bytes and takes the chunk
  for a command, whatever the text may be.
-/
import Aesd.Server.Recv

namespace Aesd.Server

open Aesd.Lib Aesd.Lib.CString
open Aesd.Driver (Byte newline isNewline AesdSeekto)

/-! ## The cut at the separators -/

section Cut

variable {bytes pre X Y rest : List Byte}

/-- The cut of a chunk is that of the buffer. -/
theorem Delimited.in_buffer (h : Delimited bytes pre X Y rest) :
    Delimited (recvBuffer bytes) pre X Y
      (rest ++ List.replicate (BUFFER_SIZE - bytes.length) 0) :=
  { bytes_eq := by
      rw [recvBuffer]
      generalize List.replicate (BUFFER_SIZE - bytes.length) (0 : Byte) = zeros
      rw [h.bytes_eq]
      simp
    pre_ok := h.pre_ok
    first_ok := h.first_ok
    second_ok := h.second_ok }

/-- The text up to the newline has no NUL. -/
theorem Delimited.zero_not_mem (h : Delimited bytes pre X Y rest) :
    0 ∉ pre ++ colon :: (X ++ comma :: (Y ++ [newline])) := by
  simp only [List.mem_append, List.mem_cons, List.not_mem_nil, or_false, not_or]
  exact ⟨h.pre_ok.2, by decide, h.first_ok.2, by decide, h.second_ok.2, by decide⟩

/-- The separators found in the buffer are in the chunk: behind it are only NULs. -/
theorem Delimited.of_recvBuffer (h : Delimited (recvBuffer bytes) pre X Y rest) :
    ∃ rest', Delimited bytes pre X Y rest' := by
  have heq : bytes ++ List.replicate (BUFFER_SIZE - bytes.length) 0 =
      (pre ++ colon :: (X ++ comma :: (Y ++ [newline]))) ++ rest := by
    have hbytes := h.bytes_eq
    rw [recvBuffer] at hbytes
    rw [hbytes]
    simp
  rcases List.append_eq_append_iff.mp heq with ⟨t, htext, hzeros⟩ | ⟨t, rfl, -⟩
  · -- the text would reach into the NULs
    have ht : t = [] := by
      rw [List.eq_nil_iff_forall_not_mem]
      intro b hb
      have hmem : b ∈ List.replicate (BUFFER_SIZE - bytes.length) 0 := by
        rw [hzeros]
        exact List.mem_append_left _ hb
      obtain rfl := List.eq_of_mem_replicate hmem
      exact h.zero_not_mem (htext ▸ List.mem_append_right _ hb)
    rw [ht, List.append_nil] at htext
    exact ⟨[], { bytes_eq := htext.symm, pre_ok := h.pre_ok, first_ok := h.first_ok,
                 second_ok := h.second_ok }⟩
  · exact ⟨t, { bytes_eq := by simp, pre_ok := h.pre_ok, first_ok := h.first_ok,
                second_ok := h.second_ok }⟩

/-- There is one cut. -/
theorem Delimited.unique {pre' X' Y' rest' : List Byte} (h : Delimited bytes pre X Y rest)
    (h' : Delimited bytes pre' X' Y' rest') : pre = pre' ∧ X = X' ∧ Y = Y' := by
  -- the scans stop at the same places
  have hpre : pre.length = pre'.length := by
    simpa only [Option.some.injEq] using h.colon_scan.symm.trans h'.colon_scan
  have hcomma := h'.comma_scan
  rw [← hpre, h.comma_scan] at hcomma
  simp only [Option.some.injEq] at hcomma
  have hX : X.length = X'.length := by omega
  have hnewline := h'.newline_scan
  rw [← hpre, ← hX, h.newline_scan] at hnewline
  simp only [Option.some.injEq] at hnewline
  have hY : Y.length = Y'.length := by omega
  have heq := h.bytes_eq.symm.trans h'.bytes_eq
  obtain ⟨rfl, hfirst⟩ := List.append_inj heq hpre
  obtain ⟨rfl, hsecond⟩ := List.append_inj (List.cons.inj hfirst).2 hX
  obtain ⟨rfl, -⟩ := List.append_inj (List.cons.inj hsecond).2 hY
  exact ⟨rfl, rfl, rfl⟩

/-- Without the three separators the parser says no if some scan meets a NUL,
    and leaves the buffer otherwise. -/
theorem check_of_not_delimited (h : ∀ pre X Y rest, ¬ Delimited bytes pre X Y rest) :
    checkForIoctlCommand bytes = if 0 ∈ bytes then some none else none := by
  unfold checkForIoctlCommand
  rcases strchr_cases [] bytes (c := colon) (by decide) with ⟨pre, r₁, rfl, hpre⟩ | hmiss
  · have hcolon : strchr (pre ++ colon :: r₁) 0 colon = some (some pre.length) := by
      simpa using strchr_append [] hpre.1 hpre.2 r₁
    simp only [hcolon, Option.bind_eq_bind, Option.bind_some]
    rcases strchr_cases_behind pre r₁ (c := comma) (d := colon) (by decide) (by decide)
      (by decide) with ⟨X, r₂, rfl, hX⟩ | hmiss
    · have hcomma := strchr_behind pre (c := comma) (d := colon) (by decide) (by decide) hX.1 hX.2 r₂
      simp only [hcomma, Option.bind_some]
      rcases strchr_cases_behind (pre ++ colon :: X) r₂ (c := newline) (d := comma) (by decide)
        (by decide) (by decide) with ⟨Y, r₃, rfl, hY⟩ | hmiss
      · exact absurd { bytes_eq := rfl, pre_ok := hpre, first_ok := hX, second_ok := hY }
          (h pre X Y r₃)
      · rw [List.append_assoc, List.cons_append, List.length_append, List.length_cons,
          ← Nat.add_assoc] at hmiss
        -- the NULs of the buffer, if any, are behind the `,`
        have hzero : 0 ∈ pre ++ colon :: (X ++ comma :: r₂) ↔ 0 ∈ r₂ := by
          simp [hpre.2, hX.2, colon, comma]
        simp only [hmiss, hzero]
        split <;> rfl
    · have hzero : 0 ∈ pre ++ colon :: r₁ ↔ 0 ∈ r₁ := by
        simp [hpre.2, colon]
      simp only [hmiss, hzero]
      split <;> rfl
  · rw [List.nil_append, List.length_nil] at hmiss
    rw [hmiss]
    split <;> rfl

/-- With them it does not say no. -/
theorem Delimited.check_ne (h : Delimited bytes pre X Y rest) :
    checkForIoctlCommand bytes ≠ some none := by
  rw [h.check_eq]
  intro heq
  obtain ⟨w, -, heq⟩ := Option.bind_eq_some_iff.mp heq
  obtain ⟨o, -, heq⟩ := Option.map_eq_some_iff.mp heq
  cases heq

end Cut

/-! ## Which chunks are taken for a command -/

/-- The chunk begins with `AESDCHAR_IOCSEEKTO:`, a number, `,`, a number and a newline. -/
def IsSeekText (chunk : List Byte) : Prop :=
  ∃ n X Y rest, Numeral n X ∧ Numeral n Y ∧ chunk = seekCommand X Y ++ rest

/-- The text up to and including its first newline, or all of it. -/
def firstLine : List Byte → List Byte
  | [] => []
  | b :: bs => if b = newline then [b] else b :: firstLine bs

/-- Seek commands are sought and everything else is written, whatever lies
    behind the arrays of the parser. -/
structure RecognisesCommand (c : Chunk) : Prop where
  command : IsSeekText c.val → ∀ oob, ∃ seekto, afterRecv oob (.chunk c) = .ioctl seekto c.val.length
  text : ¬ IsSeekText c.val →
    ∀ oob, afterRecv oob (.chunk c) = .write (firstLine c.val) c.val.length

/-- The piece that the loop writes is the first line. -/
theorem linePiece_eq_firstLine (chunk : List Byte) : linePiece chunk = firstLine chunk := by
  by_cases hmem : newline ∈ chunk
  · obtain ⟨t, rest, rfl, ht⟩ := List.eq_append_cons_of_mem hmem
    rw [linePiece_append ht]
    clear hmem
    induction t with
    | nil => rfl
    | cons b t ih =>
      rw [List.mem_cons, not_or] at ht
      rw [List.cons_append, List.cons_append, firstLine, if_neg (Ne.symm ht.1), ih ht.2]
  · rw [linePiece_of_not_mem hmem]
    induction chunk with
    | nil => rfl
    | cons b t ih =>
      rw [List.mem_cons, not_or] at hmem
      rw [firstLine, if_neg (Ne.symm hmem.1), ← ih hmem.2]

/-- A number that fills its array is read beyond the end. -/
theorem numberBetween_numeral_long (pre rest : List Byte) {n : Nat} {ds : List Byte} (c d : Byte)
    (hds : Numeral n ds) (hlong : 9 < ds.length) :
    numberBetween (pre ++ c :: (ds ++ d :: rest)) pre.length (pre.length + ds.length + 1) = none := by
  by_cases h10 : ds.length ≤ 10
  · have hfull : 10 - ds.length = 0 := by omega
    rw [numberBetween_eq pre rest c d (hds.not_mem (by decide)) h10, hfull, List.replicate_zero,
      List.append_nil, hds.atoi_eq_none, Option.map_none]
  · exact numberBetween_too_long _ (by omega)

/-- So a command with a number of ten digits or more has no defined answer. -/
theorem Delimited.check_long {bytes pre X Y rest : List Byte} {n : Nat}
    (h : Delimited bytes pre X Y rest) (hX : Numeral n X) (hY : Numeral n Y)
    (hlong : ¬ (X.length ≤ 9 ∧ Y.length ≤ 9)) : checkForIoctlCommand bytes = none := by
  rw [h.check_eq]
  by_cases hX9 : X.length ≤ 9
  · have hsecond := numberBetween_numeral_long (pre ++ colon :: X) rest comma newline hY (by omega)
    rw [← h.bytes_eq₂, List.length_append, List.length_cons, ← Nat.add_assoc] at hsecond
    simp only [hsecond, Option.map_none, Option.bind_fun_none]
  · have hfirst := numberBetween_numeral_long pre (Y ++ newline :: rest) colon comma hX (by omega)
    rw [← h.bytes_eq] at hfirst
    rw [hfirst, Option.bind_none]

/-- The rest of a short chunk's buffer is NUL. -/
theorem zero_mem_recvBuffer {chunk : List Byte} (h : chunk.length < BUFFER_SIZE) :
    0 ∈ recvBuffer chunk := by
  rw [recvBuffer, List.mem_append]
  exact .inr (List.mem_replicate.mpr ⟨by omega, rfl⟩)

section Decisions

variable {c : Chunk} {oob : Option AesdSeekto}

theorem afterRecv_of_command {seekto : AesdSeekto}
    (h : checkForIoctlCommand (recvBuffer c.val) = some (some seekto)) :
    afterRecv oob (.chunk c) = .ioctl seekto c.val.length := by
  rw [afterRecv, checked, h, Option.getD_some]

theorem afterRecv_of_text (h : checkForIoctlCommand (recvBuffer c.val) = some none) :
    afterRecv oob (.chunk c) = .write (linePiece c.val) c.val.length := by
  rw [afterRecv, checked, h, Option.getD_some]

/-- Out of bounds, what is there decides. -/
theorem afterRecv_of_undefined (h : checkForIoctlCommand (recvBuffer c.val) = none) :
    afterRecv none (.chunk c) = .write (linePiece c.val) c.val.length ∧
      ∀ seekto, afterRecv (some seekto) (.chunk c) = .ioctl seekto c.val.length := by
  refine ⟨?_, ?_⟩
  · rw [afterRecv, checked, h, Option.getD_none]
  · intro seekto
    rw [afterRecv, checked, h, Option.getD_none]

/-- A chunk with the three separators is not safely text. -/
theorem Delimited.not_text {pre X Y rest : List Byte} (h : Delimited c.val pre X Y rest) :
    ¬ ∀ oob, afterRecv oob (.chunk c) = .write (firstLine c.val) c.val.length := by
  intro htext
  cases hcheck : checkForIoctlCommand (recvBuffer c.val) with
  | none =>
    have hundef := (afterRecv_of_undefined hcheck).2 ⟨0, 0⟩
    rw [htext] at hundef
    cases hundef
  | some answer =>
    cases answer with
    | none => exact h.in_buffer.check_ne hcheck
    | some seekto =>
      have hcommand : afterRecv none (.chunk c) = .ioctl seekto c.val.length :=
        afterRecv_of_command hcheck
      rw [htext] at hcommand
      cases hcommand

end Decisions

/-- A chunk shorter than the buffer is recognised for what it is exactly if the
    three separators, where they cut it, cut out the name of the command and
    two numbers of at most nine digits. -/
theorem recvMessages_recognises_iff {c : Chunk} (hshort : c.val.length < BUFFER_SIZE) :
    RecognisesCommand c ↔ ∀ pre X Y rest, Delimited c.val pre X Y rest →
      pre = commandName ∧ Numeral 9 X ∧ Numeral 9 Y := by
  refine ⟨?_, ?_⟩
  · intro h pre X Y rest hcut
    have hseek : IsSeekText c.val := by
      by_contra hnot
      exact hcut.not_text (h.text hnot)
    obtain ⟨n, X', Y', rest', hX, hY, heq⟩ := id hseek
    have hcut' : Delimited c.val commandName X' Y' rest' := heq ▸ delimited_seekCommand hX hY rest'
    obtain ⟨rfl, rfl, rfl⟩ := hcut.unique hcut'
    -- with a number too long, a write is as possible as a seek
    have hlen : X.length ≤ 9 ∧ Y.length ≤ 9 := by
      by_contra hlong
      have hundef := (afterRecv_of_undefined (hcut.in_buffer.check_long hX hY hlong)).1
      obtain ⟨seekto, hioctl⟩ := h.command hseek none
      rw [hundef] at hioctl
      cases hioctl
    exact ⟨rfl, { hX with length_le := hlen.1 }, { hY with length_le := hlen.2 }⟩
  · intro h
    refine ⟨?_, ?_⟩
    · rintro ⟨n, X, Y, rest, hX, hY, heq⟩ oob
      have hcut : Delimited c.val commandName X Y rest := heq ▸ delimited_seekCommand hX hY rest
      obtain ⟨-, hX9, hY9⟩ := h _ _ _ _ hcut
      exact ⟨_, afterRecv_of_command (hcut.in_buffer.check_numerals hX9 hY9)⟩
    · intro hnot oob
      have hcut : ∀ pre X Y rest, ¬ Delimited (recvBuffer c.val) pre X Y rest := by
        intro pre X Y rest hbuf
        obtain ⟨rest', hcut⟩ := hbuf.of_recvBuffer
        obtain ⟨rfl, hX, hY⟩ := h _ _ _ _ hcut
        refine hnot ⟨9, X, Y, rest', hX, hY, ?_⟩
        rw [hcut.bytes_eq]
        simp [seekCommand]
      have hcheck := check_of_not_delimited hcut
      rw [if_pos (zero_mem_recvBuffer hshort)] at hcheck
      rw [afterRecv_of_text hcheck, linePiece_eq_firstLine]

/-- `a:b,c` and a newline. -/
def labelledText : Chunk := .of 97 [colon, 98, comma, 99, newline]

/-- The text is taken for a request of byte 0 of entry 0, and not written. -/
theorem labelledText_taken_for_command :
    labelledText.val.length < BUFFER_SIZE ∧ ¬ IsSeekText labelledText.val ∧
      (∀ oob, afterRecv oob (.chunk labelledText) = .ioctl ⟨0, 0⟩ 6) ∧
      ¬ RecognisesCommand labelledText := by
  have hnot : ¬ IsSeekText labelledText.val := by
    rintro ⟨n, X, Y, rest, -, -, heq⟩
    -- the first letter is not that of the command
    have hhead := congrArg List.head? heq
    simp [labelledText, Chunk.of, seekCommand, commandName] at hhead
  have hioctl : ∀ oob, afterRecv oob (.chunk labelledText) = .ioctl ⟨0, 0⟩ 6 := fun oob =>
    afterRecv_of_command (by decide)
  refine ⟨by decide, hnot, hioctl, fun h => ?_⟩
  have htext := h.text hnot none
  rw [hioctl none] at htext
  cases htext

/-- `AESDCHAR_IOCSEEKTO:0,2` and a newline. -/
def seekZeroTwo : Chunk := .of 65 (seekCommand [48] [50]).tail

theorem seekZeroTwo_recognised : RecognisesCommand seekZeroTwo := by
  have h0 : Numeral 9 [48] := ⟨List.all_eq_true.mp rfl, List.cons_ne_nil _ _, by decide⟩
  have h2 : Numeral 9 [50] := ⟨List.all_eq_true.mp rfl, List.cons_ne_nil _ _, by decide⟩
  have hown : Delimited seekZeroTwo.val commandName [48] [50] [] := delimited_seekCommand h0 h2 []
  apply (recvMessages_recognises_iff (by decide)).mpr
  intro pre X Y rest hcut
  obtain ⟨rfl, rfl, rfl⟩ := hcut.unique hown
  exact ⟨rfl, h0, h2⟩

/-! ## Which chunks are parsed inside the arrays -/

/-- The text between the separators at `start` and `stop` is copied into the
    array of ten bytes and leaves a NUL in it. -/
def CopyInside (buffer : List Byte) (start stop : Nat) : Prop :=
  stop - start - 1 ≤ 10 ∧
    ∃ numStr, strncpy (List.replicate 10 0) (buffer.drop (start + 1)) (stop - start - 1) =
      some numStr ∧ 0 ∈ numStr

/-- Each scan of the parser ends inside the buffer, each copy stays inside its
    array and each array that is read as a number has a NUL. -/
structure ParserInside (buffer : List Byte) : Prop where
  colon_scan : strchr buffer 0 colon ≠ none
  comma_scan : ∀ i, strchr buffer 0 colon = some (some i) → strchr buffer i comma ≠ none
  newline_scan : ∀ i j, strchr buffer 0 colon = some (some i) →
    strchr buffer i comma = some (some j) → strchr buffer j newline ≠ none
  copies : ∀ i j k, strchr buffer 0 colon = some (some i) →
    strchr buffer i comma = some (some j) → strchr buffer j newline = some (some k) →
    CopyInside buffer i j ∧ CopyInside buffer j k
  answers : checkForIoctlCommand buffer ≠ none

/-- An answer means that every scan has ended. -/
theorem scans_of_answer {buffer : List Byte} (h : checkForIoctlCommand buffer ≠ none) :
    strchr buffer 0 colon ≠ none ∧
      (∀ i, strchr buffer 0 colon = some (some i) → strchr buffer i comma ≠ none) ∧
      ∀ i j, strchr buffer 0 colon = some (some i) → strchr buffer i comma = some (some j) →
        strchr buffer j newline ≠ none := by
  unfold checkForIoctlCommand at h
  refine ⟨fun hnone => ?_, fun i hi hnone => ?_, fun i j hi hj hnone => ?_⟩
  · simp only [hnone, Option.bind_eq_bind, Option.bind_none] at h
    exact h rfl
  · simp only [hi, hnone, Option.bind_eq_bind, Option.bind_some, Option.bind_none] at h
    exact h rfl
  · simp only [hi, hj, hnone, Option.bind_eq_bind, Option.bind_some, Option.bind_none] at h
    exact h rfl

/-- Scans that find all three separators are not answered by no. -/
theorem check_of_found {buffer : List Byte} {i j k : Nat}
    (hi : strchr buffer 0 colon = some (some i)) (hj : strchr buffer i comma = some (some j))
    (hk : strchr buffer j newline = some (some k)) : checkForIoctlCommand buffer ≠ some none := by
  unfold checkForIoctlCommand
  simp only [hi, hj, hk, Option.bind_eq_bind, Option.bind_some]
  intro heq
  obtain ⟨w, -, heq⟩ := Option.bind_eq_some_iff.mp heq
  obtain ⟨o, -, heq⟩ := Option.bind_eq_some_iff.mp heq
  cases heq

/-- The copy of a text without a NUL leaves one behind it exactly if the text
    has at most nine bytes. -/
theorem copyInside_iff (pre rest : List Byte) {t : List Byte} (c d : Byte) (h0 : 0 ∉ t) :
    CopyInside (pre ++ c :: (t ++ d :: rest)) pre.length (pre.length + t.length + 1) ↔
      t.length ≤ 9 := by
  have hsize : pre.length + t.length + 1 - pre.length - 1 = t.length := by omega
  rw [CopyInside, hsize]
  refine ⟨?_, ?_⟩
  · rintro ⟨hfit, numStr, hcopy, hzero⟩
    rw [numStr_eq pre rest c d h0 hfit] at hcopy
    obtain rfl := Option.some.inj hcopy
    -- the NUL can only be in the rest of the array
    have hrest := (List.mem_append.mp hzero).resolve_left h0
    have hne := (List.mem_replicate.mp hrest).1
    omega
  · intro h9
    refine ⟨by omega, _, numStr_eq pre rest c d h0 (by omega), ?_⟩
    exact List.mem_append_right _ (List.mem_replicate.mpr ⟨by omega, rfl⟩)

/-- Then the number is read. -/
theorem numberBetween_of_short (pre rest : List Byte) {t : List Byte} (c d : Byte) (h0 : 0 ∉ t)
    (h9 : t.length ≤ 9) :
    ∃ n, numberBetween (pre ++ c :: (t ++ d :: rest)) pre.length (pre.length + t.length + 1) =
      some n := by
  have hzero : 0 ∈ t ++ List.replicate (10 - t.length) (0 : Byte) :=
    List.mem_append_right _ (List.mem_replicate.mpr ⟨by omega, rfl⟩)
  obtain ⟨n, hn⟩ := Option.ne_none_iff_exists'.mp (atoi_of_mem_zero hzero)
  exact ⟨_, by rw [numberBetween_eq pre rest c d h0 (by omega), hn, Option.map_some]⟩

section Inside

variable {bytes pre X Y rest : List Byte}

/-- The two copies of a buffer with the three separators. -/
theorem Delimited.copies_iff (h : Delimited bytes pre X Y rest) :
    (CopyInside bytes pre.length (pre.length + X.length + 1) ↔ X.length ≤ 9) ∧
      (CopyInside bytes (pre.length + X.length + 1) (pre.length + X.length + 1 + Y.length + 1) ↔
        Y.length ≤ 9) := by
  have hfirst := copyInside_iff pre (Y ++ newline :: rest) colon comma h.first_ok.2
  have hsecond := copyInside_iff (pre ++ colon :: X) rest comma newline h.second_ok.2
  rw [← h.bytes_eq] at hfirst
  rw [← h.bytes_eq₂, List.length_append, List.length_cons, ← Nat.add_assoc] at hsecond
  exact ⟨hfirst, hsecond⟩

theorem Delimited.parserInside_iff (h : Delimited bytes pre X Y rest) :
    ParserInside bytes ↔ X.length ≤ 9 ∧ Y.length ≤ 9 := by
  refine ⟨?_, ?_⟩
  · intro hin
    obtain ⟨hfirst, hsecond⟩ := hin.copies _ _ _ h.colon_scan h.comma_scan h.newline_scan
    exact ⟨h.copies_iff.1.mp hfirst, h.copies_iff.2.mp hsecond⟩
  · rintro ⟨hX, hY⟩
    obtain ⟨w, hw⟩ := numberBetween_of_short pre (Y ++ newline :: rest) colon comma h.first_ok.2 hX
    obtain ⟨o, ho⟩ := numberBetween_of_short (pre ++ colon :: X) rest comma newline h.second_ok.2 hY
    rw [← h.bytes_eq] at hw
    rw [← h.bytes_eq₂, List.length_append, List.length_cons, ← Nat.add_assoc] at ho
    have hanswer : checkForIoctlCommand bytes ≠ none := by
      rw [h.check_eq, hw, ho]
      exact Option.some_ne_none _
    obtain ⟨hcolon, hcomma, hnewline⟩ := scans_of_answer hanswer
    refine ⟨hcolon, hcomma, hnewline, fun i j k hi hj hk => ?_, hanswer⟩
    -- the scans stop at the separators of the cut
    rw [h.colon_scan, Option.some.injEq, Option.some.injEq] at hi
    subst hi
    rw [h.comma_scan, Option.some.injEq, Option.some.injEq] at hj
    subst hj
    rw [h.newline_scan, Option.some.injEq, Option.some.injEq] at hk
    subst hk
    exact ⟨h.copies_iff.1.mpr hX, h.copies_iff.2.mpr hY⟩

/-- Without the three separators there is nothing to copy, and the scans need a NUL. -/
theorem parserInside_of_not_delimited (h : ∀ pre X Y rest, ¬ Delimited bytes pre X Y rest) :
    ParserInside bytes ↔ 0 ∈ bytes := by
  have hcheck := check_of_not_delimited h
  refine ⟨?_, ?_⟩
  · intro hin
    by_contra h0
    exact hin.answers (by rw [hcheck, if_neg h0])
  · intro h0
    rw [if_pos h0] at hcheck
    have hanswer : checkForIoctlCommand bytes ≠ none := by
      rw [hcheck]
      exact Option.some_ne_none _
    obtain ⟨hcolon, hcomma, hnewline⟩ := scans_of_answer hanswer
    exact ⟨hcolon, hcomma, hnewline, fun i j k hi hj hk => absurd hcheck (check_of_found hi hj hk),
      hanswer⟩

end Inside

/-- The buffer has a NUL unless the chunk fills it and has none. -/
theorem zero_mem_recvBuffer_iff (c : Chunk) :
    0 ∈ recvBuffer c.val ↔ c.val.length < BUFFER_SIZE ∨ 0 ∈ c.val := by
  have hle := c.property.2
  rw [recvBuffer, List.mem_append, List.mem_replicate, or_comm]
  have hcount : BUFFER_SIZE - c.val.length ≠ 0 ↔ c.val.length < BUFFER_SIZE := by omega
  rw [hcount, and_iff_left rfl]

/-- The parser stays inside its arrays exactly if its scans have a separator
    or a NUL to stop at and the texts between the separators have at most nine bytes. -/
theorem checkForIoctlCommand_inside_iff (c : Chunk) :
    ParserInside (recvBuffer c.val) ↔
      (c.val.length < BUFFER_SIZE ∨ 0 ∈ c.val ∨ ∃ pre X Y rest, Delimited c.val pre X Y rest) ∧
      ∀ pre X Y rest, Delimited c.val pre X Y rest → X.length ≤ 9 ∧ Y.length ≤ 9 := by
  by_cases hcut : ∃ pre X Y rest, Delimited c.val pre X Y rest
  · obtain ⟨pre, X, Y, rest, h⟩ := id hcut
    rw [h.in_buffer.parserInside_iff]
    refine ⟨?_, ?_⟩
    · intro hlen
      refine ⟨.inr (.inr hcut), fun pre' X' Y' rest' h' => ?_⟩
      obtain ⟨-, rfl, rfl⟩ := h.unique h'
      exact hlen
    · rintro ⟨-, hlen⟩
      exact hlen pre X Y rest h
  · have hbuf : ∀ pre X Y rest, ¬ Delimited (recvBuffer c.val) pre X Y rest := by
      intro pre X Y rest h
      obtain ⟨rest', h'⟩ := h.of_recvBuffer
      exact hcut ⟨pre, X, Y, rest', h'⟩
    rw [parserInside_of_not_delimited hbuf, zero_mem_recvBuffer_iff]
    refine ⟨?_, ?_⟩
    · intro h0
      refine ⟨h0.imp_right .inl, fun pre X Y rest h => ?_⟩
      exact absurd ⟨pre, X, Y, rest, h⟩ hcut
    · rintro ⟨h0, -⟩
      rcases h0 with hshort | hzero | h
      · exact .inl hshort
      · exact .inr hzero
      · exact absurd h hcut

/-- `:12345678901,0` and a newline: eleven digits. -/
def elevenDigits : Chunk :=
  .of colon [49, 50, 51, 52, 53, 54, 55, 56, 57, 48, 49, comma, 48, newline]

/-- The copy of the first number is longer than its array. -/
theorem elevenDigits_overrun :
    strchr (recvBuffer elevenDigits.val) 0 colon = some (some 0) ∧
      strchr (recvBuffer elevenDigits.val) 0 comma = some (some 12) ∧
      ¬ CopyInside (recvBuffer elevenDigits.val) 0 12 ∧
      ¬ ParserInside (recvBuffer elevenDigits.val) := by
  have hcolon : strchr (recvBuffer elevenDigits.val) 0 colon = some (some 0) := by decide
  have hcomma : strchr (recvBuffer elevenDigits.val) 0 comma = some (some 12) := by decide
  have hnewline : strchr (recvBuffer elevenDigits.val) 12 newline = some (some 14) := by decide
  have hcopy : ¬ CopyInside (recvBuffer elevenDigits.val) 0 12 := fun h => absurd h.1 (by decide)
  exact ⟨hcolon, hcomma, hcopy, fun h => hcopy (h.copies 0 12 14 hcolon hcomma hnewline).1⟩

end Aesd.Server
