import CgrJni.Ionadmin
import CgrJni.Words

/-!
How a command line is divided into tokens. A token takes one whitespace
character with it, and whatever whitespace is left at the end is counted as one
more token, which is null.
-/

namespace CommandLines

open Platform Ionadmin Process Words

/-- The tokens that the switch on the command code goes by, if it is reached. -/
def commandTokens (line : CString) : Option Tokens :=
  let parsed := readTokens 9 line
  if parsed.1 = [] ∨ parsed.2.dropWhile isspace ≠ [] then none else some parsed.1

theorem readLine_eq (atof : CString → ℚ) (referenceTime now : Int) (line : CString) :
    readLine atof referenceTime now line =
      match commandTokens line with
      | none => some .nothing
      | some tokens => (token tokens 0).bind fun code => execute atof referenceTime now code.head? tokens := by
  unfold readLine commandTokens
  dsimp only
  split_ifs <;> simp_all

/-- Whitespace is left where a further token will be looked for: the line has no word and is not
empty, or more than one whitespace character follows its last word. -/
def Loose (line : CString) : Prop :=
  if words isspace line = [] then line ≠ [] else 1 < (line.rtakeWhile isspace).length

instance (line : CString) : Decidable (Loose line) := inferInstanceAs (Decidable (ite _ _ _))

theorem loose_of_append {front rest : CString} {s : Char} (hs : isspace s = true)
    (hw : words isspace (front ++ s :: rest) ≠ []) (hlast : ∀ hl : front ≠ [], isspace (front.getLast hl) = false) :
    Loose (front ++ s :: rest) ↔ Loose rest := by
  unfold Loose
  rw [if_neg hw]
  by_cases hrest : words isspace rest = []
  · have hall : ∀ c ∈ s :: rest, isspace c = true :=
      List.forall_mem_cons.mpr ⟨hs, words_eq_nil.mp hrest⟩
    have hnone : front.rtakeWhile isspace = [] :=
      List.rtakeWhile_eq_nil_iff.mpr (fun hl => by simp [hlast hl])
    rw [if_pos hrest, rtakeWhile_append_of_all front hall, hnone, List.nil_append, List.length_cons]
    cases rest with
    | nil => simp
    | cons c rest => simp
  · have hsome : ∃ c ∈ rest, isspace c = false := by
      by_contra hno
      refine hrest (words_eq_nil.mpr (fun c hc => ?_))
      cases hcs : isspace c with
      | true => rfl
      | false => exact absurd ⟨c, hc, hcs⟩ hno
    rw [if_neg hrest, ← List.singleton_append (x := s) (l := rest), ← List.append_assoc,
      rtakeWhile_append_of_exists _ hsome]

/-- One call finds the next word and leaves the words behind it, or finds that there is none. -/
theorem findToken_words {cursor : CString} (hq : quoteMark ∉ cursor) :
    (words isspace cursor = [] ∧ findToken cursor = (none, [])) ∨
    ∃ w rest, words isspace cursor = w :: words isspace rest ∧ findToken cursor = (some w, rest) ∧
      quoteMark ∉ rest ∧ (Loose cursor ↔ Loose rest) := by
  have hsplit := List.takeWhile_append_dropWhile (p := isspace) (l := cursor)
  unfold findToken
  cases hd : cursor.dropWhile isspace with
  | nil =>
    left
    refine ⟨?_, rfl⟩
    rw [← words_dropWhile, hd, words_nil]
  | cons c rest =>
    right
    have hc : isspace c = false := by
      have := List.head?_dropWhile_not isspace cursor
      rw [hd] at this
      simpa using this
    have hcq : c ≠ quoteMark := by
      rintro rfl
      refine hq ((List.dropWhile_suffix isspace).subset ?_)
      rw [hd]
      exact List.mem_cons_self
    have hword : ∀ d ∈ (c :: rest).takeWhile (fun d => !isspace d), isspace d = false := by
      intro d hd
      simpa using List.mem_takeWhile_imp hd
    have hne : (c :: rest).takeWhile (fun d => !isspace d) ≠ [] := by simp [hc]
    have hparts := List.takeWhile_append_dropWhile (p := fun d => !isspace d) (l := c :: rest)
    have hwords : words isspace cursor = words isspace (c :: rest) := by rw [← words_dropWhile, hd]
    rw [hd] at hsplit
    rw [← hparts] at hwords hsplit
    dsimp only
    rw [if_neg hcq, List.span_eq_takeWhile_dropWhile]
    generalize (c :: rest).takeWhile (fun d => !isspace d) = w at *
    cases htail : (c :: rest).dropWhile (fun d => !isspace d) with
    | nil =>
      -- the line ends with this word
      rw [htail, List.append_nil] at hwords hsplit
      rw [words_of_word hword hne] at hwords
      refine ⟨w, [], by rw [hwords, words_nil], rfl, List.not_mem_nil, ?_⟩
      refine iff_of_false ?_ (by simp [Loose])
      rw [Loose, if_neg (by simp [hwords]), ← hsplit, rtakeWhile_append_of_exists]
      · have hnone : w.rtakeWhile isspace = [] :=
          List.rtakeWhile_eq_nil_iff.mpr (fun hl => by simp [hword _ (List.getLast_mem hl)])
        simp [hnone]
      · obtain ⟨d, hdw⟩ := List.exists_mem_of_ne_nil w hne
        exact ⟨d, hdw, hword d hdw⟩
    | cons s l =>
      have hs : isspace s = true := by
        have := List.head?_dropWhile_not (fun d => !isspace d) (c :: rest)
        rw [htail] at this
        simpa using this
      rw [htail] at hwords hsplit
      rw [words_word_append hword hne hs] at hwords
      rw [← List.append_assoc] at hsplit
      refine ⟨w, l, hwords, rfl, fun hm => hq ?_, ?_⟩
      · rw [← hsplit]
        exact List.mem_append_right _ (List.mem_cons_of_mem s hm)
      · rw [← hsplit]
        refine loose_of_append hs (by rw [hsplit, hwords]; exact List.cons_ne_nil _ _) (fun hl => ?_)
        rw [List.getLast_append_of_ne_nil _ hne]
        exact hword _ (List.getLast_mem hne)

/-- So many calls take that many words; with more calls than words one further token is counted
where whitespace is left. -/
theorem readTokens_words {n : Nat} {cursor : CString} (hq : quoteMark ∉ cursor) :
    (n ≤ (words isspace cursor).length ∧
      (readTokens n cursor).1 = ((words isspace cursor).take n).map some ∧
      words isspace (readTokens n cursor).2 = (words isspace cursor).drop n) ∨
    ((words isspace cursor).length < n ∧
      (readTokens n cursor).1 = (words isspace cursor).map some ++ (if Loose cursor then [none] else []) ∧
      (readTokens n cursor).2 = []) := by
  induction n generalizing cursor with
  | zero =>
    left
    simp [readTokens]
  | succ n ih =>
    by_cases hnil : cursor = []
    · right
      simp [hnil, readTokens, Loose]
    rw [readTokens, if_neg hnil]
    dsimp only
    rcases findToken_words hq with ⟨hw, hf⟩ | ⟨w, rest, hw, hf, hqr, hloose⟩
    · right
      have hlo : Loose cursor := by rw [Loose, if_pos hw]; exact hnil
      have hend : readTokens n [] = ([], []) := by
        cases n with
        | zero => rfl
        | succ n => rfl
      rw [hf, hw, if_pos hlo, hend]
      simp
    · rw [hf, hw]
      rcases ih hqr with ⟨hn, hfirst, hrest⟩ | ⟨hn, hfirst, hrest⟩
      · left
        refine ⟨?_, ?_, ?_⟩
        · rw [List.length_cons]
          omega
        · rw [hfirst, List.take_succ_cons, List.map_cons]
        · rw [hrest, List.drop_succ_cons]
      · right
        refine ⟨?_, ?_, hrest⟩
        · rw [List.length_cons]
          omega
        · rw [hfirst, List.map_cons, List.cons_append]
          simp only [hloose]

/-- What the switch goes by, for a line without quotes. -/
theorem commandTokens_words {line : CString} (hq : quoteMark ∉ line) : commandTokens line =
    if words isspace line = [] ∧ line = [] ∨ 9 < (words isspace line).length then none
    else some ((words isspace line).map some ++
      (if (words isspace line).length < 9 ∧ Loose line then [none] else [])) := by
  unfold commandTokens
  dsimp only
  rcases readTokens_words hq (n := 9) with ⟨hn, hfirst, hrest⟩ | ⟨hn, hfirst, hrest⟩
  · -- nine tokens are found, and the rest of the line is whitespace or has further words
    have hne : (readTokens 9 line).1 ≠ [] := by
      rw [hfirst]
      intro h
      have := congrArg List.length h
      rw [List.length_map, List.length_take, List.length_nil] at this
      omega
    have hblank : (readTokens 9 line).2.dropWhile isspace ≠ [] ↔ 9 < (words isspace line).length := by
      rw [Ne, List.dropWhile_eq_nil_iff, ← words_eq_nil, hrest, List.drop_eq_nil_iff, not_le]
    have hsome : words isspace line ≠ [] := by
      intro h
      rw [h] at hn
      simp at hn
    simp only [hne, false_or, hblank, hsome, false_and, if_neg (show ¬ ((words isspace line).length < 9 ∧ Loose line) by omega),
      List.append_nil]
    by_cases hmore : 9 < (words isspace line).length
    · rw [if_pos hmore, if_pos hmore]
    · rw [if_neg hmore, if_neg hmore, hfirst, List.take_of_length_le (by omega)]
  · have hnil : (words isspace line).map some ++ (if Loose line then [none] else []) = [] ↔
        words isspace line = [] ∧ line = [] := by
      rw [List.append_eq_nil_iff, List.map_eq_nil_iff]
      refine and_congr_right (fun hw => ?_)
      have hloose : Loose line ↔ line ≠ [] := by rw [Loose, if_pos hw]
      simp [hloose]
    simp only [hrest, hfirst, hnil, hn, true_and, List.dropWhile_nil, ne_eq, not_true_eq_false, or_false,
      show ¬ 9 < (words isspace line).length by omega]

/-- A line of one to nine words is executed with these words as its tokens; any other does nothing. -/
structure Tokenised (atof : CString → ℚ) (line : CString) : Prop where
  executed : 1 ≤ (words isspace line).length → (words isspace line).length ≤ 9 →
    commandTokens line = some ((words isspace line).map some) ∧
    ∀ referenceTime now, readLine atof referenceTime now line =
      ((words isspace line).head?).bind fun code =>
        execute atof referenceTime now code.head? ((words isspace line).map some)
  excess : 9 < (words isspace line).length →
    ∀ p nodeNbr now, processLine atof p nodeNbr now line = some (p, 0)
  blank : (words isspace line).length = 0 → ∀ p nodeNbr now, processLine atof p nodeNbr now line = some (p, 0)

theorem processLine_nothing {atof : CString → ℚ} {line : CString} (h : commandTokens line = none) (p : AdminProcess)
    (nodeNbr : Nat) (now : Int) : processLine atof p nodeNbr now line = some (p, 0) := by
  simp [processLine, readLine_eq, h, executeCommand]

theorem tokenised_iff (atof : CString → ℚ) (line : CString) (hq : quoteMark ∉ line) :
    Tokenised atof line ↔ 9 ≤ (words isspace line).length ∨ ¬ Loose line := by
  have htokens := commandTokens_words hq
  constructor
  · intro h
    by_contra hno
    rw [not_or, not_le, not_not] at hno
    obtain ⟨hlt, hloose⟩ := hno
    by_cases hw : words isspace line = []
    · -- the one token is null
      have hne : line ≠ [] := by rwa [Loose, if_pos hw] at hloose
      rw [if_neg (by simp [hw, hne]), if_pos ⟨hlt, hloose⟩, hw] at htokens
      have hstuck := h.blank (by rw [hw]; rfl) ⟨IonProcess.start, 0⟩ 0 0
      simp [processLine, readLine_eq, htokens, token] at hstuck
    · have hpos := List.length_pos_iff.mpr hw
      rw [if_neg (by rw [not_or]; exact ⟨fun hh => hw hh.1, by omega⟩), if_pos ⟨hlt, hloose⟩,
        (h.executed hpos (by omega)).1] at htokens
      have := congrArg List.length (Option.some.inj htokens)
      simp at this
  · intro h
    refine ⟨fun hpos hle => ?_, fun hlt => ?_, fun hzero => ?_⟩
    · have hw : words isspace line ≠ [] := List.length_pos_iff.mp hpos
      rw [if_neg (by rw [not_or]; exact ⟨fun hh => hw hh.1, by omega⟩),
        if_neg (fun hh => h.elim (fun h9 => by omega) (fun hl => hl hh.2)), List.append_nil] at htokens
      refine ⟨htokens, fun referenceTime now => ?_⟩
      rw [readLine_eq, htokens]
      cases hw' : words isspace line with
      | nil => exact absurd hw' hw
      | cons w rest => rfl
    · exact processLine_nothing (htokens.trans (if_pos (Or.inr hlt)))
    · have hw : words isspace line = [] := List.eq_nil_of_length_eq_zero hzero
      have hnil : line = [] := by
        by_contra hne
        refine h.resolve_left (by omega) ?_
        rw [Loose, if_pos hw]
        exact hne
      exact processLine_nothing (htokens.trans (if_pos (Or.inl ⟨hw, hnil⟩)))

/-- A removal with two spaces at the end of the line. -/
def looseLine : CString :=
  ['d', ' ', 'c', 'o', 'n', 't', 'a', 'c', 't', ' ', '*', ' ', '1', ' ', '2', ' ', ' ']

theorem tokenised_iff_loose : quoteMark ∉ looseLine ∧
    (Tokenised (fun _ => 1) looseLine ↔ 9 ≤ (words isspace looseLine).length ∨ ¬ Loose looseLine) :=
  ⟨by decide, tokenised_iff (fun _ => 1) looseLine (by decide)⟩

/-- The second space is counted as a sixth token, and a line of spaces alone is not survived. -/
theorem trailing_space_counted : quoteMark ∉ looseLine ∧ (words isspace looseLine).length = 5 ∧
    (commandTokens looseLine).map List.length = some 6 ∧ ¬ Tokenised (fun _ => 1) looseLine ∧
    (readLine (fun _ => 1) 0 0 [' ', ' ']).isNone := by
  refine ⟨by decide, by decide, by decide, ?_, by decide⟩
  intro h
  have hexec := (h.executed (by decide) (by decide)).1
  revert hexec
  decide

end CommandLines
