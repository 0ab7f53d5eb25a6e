import CgrJni.Platform

/-!
The lines of a file, and what is left of them when they are read into a buffer. A
buffer that fills up before the line ends loses the last character put into it.
-/

namespace LineReading

open Platform

/-- The lines of a text; the last one need not be ended by a newline. -/
def lines : CString → List CString
  | [] => []
  | c :: file =>
    if c = '\n' then [] :: lines file
    else
      match lines file with
      | [] => [[c]]
      | line :: more => (c :: line) :: more

/-- The reads give the lines one after the other: one that is shorter than the buffer as it is, any
other in pieces. -/
def ReadsLines (buflen : Nat) (file : CString) (pieces : List CString) : Prop :=
  ∃ parts : List (List CString), pieces = parts.flatten ∧
    List.Forall₂ (fun line part => (line.length < buflen → part = [line]) ∧ part.flatten = line) (lines file) parts

def NoNull (file : CString) : Prop := ∀ c ∈ file, c.toNat ≠ 0

variable {buflen n : Nat} {file buffer rest : CString} {pieces : List CString}

/-- The lines have all the characters of the text but the newlines. -/
theorem flatten_lines (file : CString) : (lines file).flatten = file.filter (fun c => c ≠ '\n') := by
  induction file with
  | nil => rfl
  | cons c file ih =>
    rw [lines, List.filter_cons]
    by_cases hc : c = '\n'
    · rw [if_pos hc, if_neg (by simp [hc])]
      exact ih
    · rw [if_neg hc, if_pos (by simp [hc]), ← ih]
      cases lines file <;> rfl

theorem fillBuffer_length (n : Nat) (file : CString) : (fillBuffer n file).1.length ≤ n := by
  induction n generalizing file with
  | zero => exact Nat.le_refl _
  | succ n ih =>
    cases file with
    | nil => exact Nat.zero_le _
    | cons c file =>
      rw [fillBuffer]
      split
      · exact Nat.zero_le _
      · exact Nat.succ_le_succ (ih file)

/-- A read gives characters of the file alone, and leaves others. -/
theorem mem_fillBuffer {c : Char} (h : c ∈ (fillBuffer n file).1 ∨ c ∈ (fillBuffer n file).2) : c ∈ file := by
  induction n generalizing file with
  | zero => exact h.resolve_left List.not_mem_nil
  | succ n ih =>
    cases file with
    | nil => exact h.elim id id
    | cons d file =>
      rw [fillBuffer] at h
      by_cases hd : d = '\n'
      · rw [if_pos hd] at h
        exact List.mem_cons_of_mem _ (h.resolve_left List.not_mem_nil)
      · rw [if_neg hd] at h
        cases h with
        | inl hbuffer =>
          cases List.mem_cons.mp hbuffer with
          | inl heq => exact heq ▸ List.mem_cons_self
          | inr hmem => exact List.mem_cons_of_mem _ (ih (Or.inl hmem))
        | inr hrest => exact List.mem_cons_of_mem _ (ih (Or.inr hrest))

/-- A buffer that is not filled up holds the first line. -/
theorem lines_fillBuffer (hfile : file ≠ []) (hshort : (fillBuffer n file).1.length < n) :
    lines file = (fillBuffer n file).1 :: lines (fillBuffer n file).2 := by
  induction n generalizing file with
  | zero => exact absurd hshort (Nat.not_lt_zero _)
  | succ n ih =>
    cases file with
    | nil => exact absurd rfl hfile
    | cons c file =>
      rw [fillBuffer] at hshort ⊢
      by_cases hc : c = '\n'
      · rw [if_pos hc, lines, if_pos hc]
      · rw [if_neg hc] at hshort ⊢
        rw [lines, if_neg hc]
        by_cases hend : file = []
        · subst hend
          cases n <;> rfl
        · rw [ih hend (Nat.lt_of_succ_lt_succ hshort)]

/-- A buffer that is filled up holds the beginning of a line. -/
theorem append_fillBuffer (hfull : (fillBuffer n file).1.length = n) :
    (fillBuffer n file).1 ++ (fillBuffer n file).2 = file ∧ '\n' ∉ (fillBuffer n file).1 := by
  induction n generalizing file with
  | zero => simp [fillBuffer]
  | succ n ih =>
    cases file with
    | nil => cases hfull
    | cons c file =>
      rw [fillBuffer] at hfull ⊢
      by_cases hc : c = '\n'
      · rw [if_pos hc] at hfull
        cases hfull
      · rw [if_neg hc] at hfull ⊢
        obtain ⟨happend, hnewline⟩ := ih (Nat.succ.inj hfull)
        refine ⟨congrArg (c :: ·) happend, ?_⟩
        rw [List.mem_cons, not_or]
        exact ⟨Ne.symm hc, hnewline⟩

/-- A text that begins without a newline begins a line. -/
theorem lines_append (hbuffer : buffer ≠ []) (hnewline : '\n' ∉ buffer) (rest : CString) :
    ∃ line more, lines (buffer ++ rest) = (buffer ++ line) :: more := by
  induction buffer with
  | nil => exact absurd rfl hbuffer
  | cons c buffer ih =>
    rw [List.mem_cons, not_or] at hnewline
    rw [List.cons_append, lines, if_neg (Ne.symm hnewline.1)]
    by_cases hend : buffer = []
    · subst hend
      rw [List.nil_append]
      cases lines rest with
      | nil => exact ⟨[], [], rfl⟩
      | cons line more => exact ⟨line, more, rfl⟩
    · obtain ⟨line, more, heq⟩ := ih hend hnewline.2
      rw [heq]
      exact ⟨line, more, rfl⟩

/-- What a read that is not the last does: it takes a line that is shorter than the buffer, or else
as many characters as the buffer has place for, the last of which is lost. -/
theorem igets_cases (buflen : Nat) (hfile : file ≠ []) (hnull : NoNull file) :
    (∃ line rest, igets buflen file = some (line, rest) ∧ lines file = line :: lines rest ∧ line.length < buflen ∧
      NoNull rest) ∨
    ∃ buffer rest, igets buflen file = some (buffer.dropLast, rest) ∧ file = buffer ++ rest ∧ '\n' ∉ buffer ∧
      buffer.length = buflen ∧ NoNull rest := by
  have hlength := fillBuffer_length buflen file
  have hkeep : ∀ s : CString, NoNull s → s.takeWhile (fun c => decide (c.toNat ≠ 0)) = s := by
    intro s hs
    rw [List.takeWhile_eq_self_iff]
    exact fun c hc => decide_eq_true (hs c hc)
  have hbuffer : NoNull (fillBuffer buflen file).1 := fun c hc => hnull c (mem_fillBuffer (Or.inl hc))
  have hrest : NoNull (fillBuffer buflen file).2 := fun c hc => hnull c (mem_fillBuffer (Or.inr hc))
  unfold igets
  rw [if_neg hfile]
  dsimp only
  by_cases hfull : (fillBuffer buflen file).1.length = buflen
  · obtain ⟨happend, hnewline⟩ := append_fillBuffer hfull
    refine Or.inr ⟨_, _, ?_, happend.symm, hnewline, hfull, hrest⟩
    rw [if_pos hfull, hkeep _ (fun c hc => hbuffer c (List.mem_of_mem_dropLast hc))]
  · have hshort := Nat.lt_of_le_of_ne hlength hfull
    refine Or.inl ⟨_, _, ?_, lines_fillBuffer hfile hshort, hshort, hrest⟩
    rw [if_neg hfull, hkeep _ hbuffer]

/-- A file whose lines all fit is read line by line. -/
theorem readLines_eq_lines (hfits : ∀ line ∈ lines file, line.length < buflen) (hnull : NoNull file) {fuel : Nat}
    (hfuel : file.length ≤ fuel) (hbuf : buflen ≠ 0) : readLines buflen fuel file = lines file := by
  induction fuel generalizing file with
  | zero =>
    obtain rfl : file = [] := List.eq_nil_of_length_eq_zero (Nat.le_zero.mp hfuel)
    rfl
  | succ fuel ih =>
    by_cases hend : file = []
    · subst hend
      rfl
    obtain ⟨line, rest, hread, hlines, -, hrest⟩ | ⟨buffer, rest, -, happend, hnewline, hlength, -⟩ :=
      igets_cases buflen hend hnull
    · have hless := igets_length hbuf hread
      rw [hlines] at hfits ⊢
      rw [readLines, hread]
      dsimp only
      rw [ih (fun l hl => hfits l (List.mem_cons_of_mem _ hl)) hrest (by omega)]
    · -- the line that fills the buffer is as long as the buffer
      have hne : buffer ≠ [] := by
        rintro rfl
        exact hbuf hlength.symm
      obtain ⟨line, more, hlines⟩ := lines_append hne hnewline rest
      rw [happend, hlines] at hfits
      have hlt := hfits _ List.mem_cons_self
      rw [List.length_append] at hlt
      omega

/-- No read gives more than there is, and where a line does not fit a character is missing. -/
theorem readLines_flatten_length (hbuf : buflen ≠ 0) (hnull : NoNull file) (fuel : Nat) :
    (readLines buflen fuel file).flatten.length ≤ (lines file).flatten.length ∧
      ((∃ line ∈ lines file, buflen ≤ line.length) →
        (readLines buflen fuel file).flatten.length < (lines file).flatten.length) := by
  induction fuel generalizing file with
  | zero =>
    refine ⟨Nat.zero_le _, ?_⟩
    rintro ⟨line, hline, hlong⟩
    have hpart : line.length ≤ (lines file).flatten.length := (List.sublist_flatten_of_mem hline).length_le
    rw [readLines, List.flatten_nil, List.length_nil]
    omega
  | succ fuel ih =>
    by_cases hend : file = []
    · subst hend
      exact ⟨Nat.le_refl _, by simp [lines]⟩
    obtain ⟨line, rest, hread, hlines, hshort, hrest⟩ | ⟨buffer, rest, hread, happend, hnewline, hlength, hrest⟩ :=
      igets_cases buflen hend hnull
    · obtain ⟨hle, hlt⟩ := ih hrest
      simp only [readLines, hread, hlines, List.flatten_cons, List.length_append]
      refine ⟨by omega, ?_⟩
      rintro ⟨long, hmem, hlong⟩
      cases List.mem_cons.mp hmem with
      | inl heq => rw [heq] at hlong; omega
      | inr hmem =>
        have hless := hlt ⟨long, hmem, hlong⟩
        omega
    · obtain ⟨hle, -⟩ := ih hrest
      have hkeep : buffer.filter (fun c => decide (c ≠ '\n')) = buffer := by
        rw [List.filter_eq_self]
        intro c hc
        rw [decide_eq_true_eq]
        rintro rfl
        exact hnewline hc
      have hlost : (readLines buflen (fuel + 1) file).flatten.length < (lines file).flatten.length := by
        rw [readLines, hread, flatten_lines, happend, List.filter_append, hkeep, ← flatten_lines]
        simp only [List.flatten_cons, List.length_append, List.length_dropLast]
        omega
      exact ⟨hlost.le, fun _ => hlost⟩

theorem ReadsLines.flatten (h : ReadsLines buflen file pieces) : pieces.flatten = (lines file).flatten := by
  obtain ⟨parts, rfl, hparts⟩ := h
  generalize lines file = all at hparts ⊢
  induction hparts with
  | nil => rfl
  | cons hpart _ ih => rw [List.flatten_cons, List.flatten_append, List.flatten_cons, hpart.2, ih]

theorem readsLines_lines (buflen : Nat) (file : CString) : ReadsLines buflen file (lines file) := by
  unfold ReadsLines
  generalize lines file = all
  induction all with
  | nil => exact ⟨[], rfl, List.Forall₂.nil⟩
  | cons line more ih =>
    obtain ⟨parts, heq, hparts⟩ := ih
    exact ⟨[line] :: parts, congrArg (line :: ·) heq, List.Forall₂.cons ⟨fun _ => rfl, List.append_nil _⟩ hparts⟩

/-- A line that has as many characters as the buffer does not come back. -/
theorem readLines_lossy :
    ¬ ReadsLines 256 (List.replicate 256 'a' ++ ['\n']) (readLines 256 257 (List.replicate 256 'a' ++ ['\n'])) := by
  intro h
  have hlength := congrArg List.length h.flatten
  have hread : (readLines 256 257 (List.replicate 256 'a' ++ ['\n'])).flatten.length = 255 := by decide +kernel
  have htext : (lines (List.replicate 256 'a' ++ ['\n'])).flatten.length = 256 := by decide +kernel
  omega

/-- The reads of a whole file lose nothing exactly when every line is shorter than the buffer. -/
theorem readLines_iff (hbuf : 2 ≤ buflen) (hnull : NoNull file) {fuel : Nat} (hfuel : file.length ≤ fuel) :
    ReadsLines buflen file (readLines buflen fuel file) ↔ ∀ line ∈ lines file, line.length < buflen := by
  have hne : buflen ≠ 0 := by omega
  constructor
  · intro h line hline
    by_contra hlong
    have hless := (readLines_flatten_length hne hnull fuel).2 ⟨line, hline, not_lt.mp hlong⟩
    rw [h.flatten] at hless
    exact lt_irrefl _ hless
  · intro hfits
    rw [readLines_eq_lines hfits hnull hfuel hne]
    exact readsLines_lines buflen file

/-- Three lines, of which one is empty and the last is not ended. -/
theorem readLines_iff_three :
    ReadsLines 4 ['a', 'b', 'c', '\n', '\n', 'd'] (readLines 4 6 ['a', 'b', 'c', '\n', '\n', 'd']) := by
  have hnull : NoNull ['a', 'b', 'c', '\n', '\n', 'd'] := by simp [NoNull]
  exact (readLines_iff (by decide) hnull (by decide)).mpr (by decide)

end LineReading
