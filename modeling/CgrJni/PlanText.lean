import CgrJni.Numerals
import CgrJni.CommandLines
import CgrJni.LineReading
import CgrJni.ContactPlanCreator

/-!
The text of a contact plan: how the generator of plans writes a line, and what the
plan becomes when it is read as a command file.
-/

namespace PlanText

open Platform Numerals Words Ionadmin CommandLines LineReading Process Rfx
open ContactPlanCreator (PlanLine)

/-- An offset from the reference time. -/
def offset (time : Nat) : CString := '+' :: decimal time

/-- The words of a line that are preceded by a tab. -/
def tabbed (words : List CString) : CString := words.flatMap (fun w => '\t' :: w)

/-- The code of an addition and its kind, and what is added; there is a space before the first tab. -/
def commandLine (kind : CString) (words : List CString) : CString := 'a' :: ' ' :: (kind ++ ' ' :: tabbed words)

/-- A line as `toString`, `toStringTwoWays` and `toStringRange` make it. -/
def lineText : PlanLine → CString
  | .contact start stop fromNode toNode datarate =>
    commandLine contactWord [offset start, offset stop, decimal fromNode, decimal toNode, decimal datarate]
  | .range start stop fromNode toNode owlt =>
    commandLine rangeWord [offset start, offset stop, decimal fromNode, decimal toNode, decimal owlt]

def fileText (plan : List PlanLine) : CString := plan.flatMap (fun line => lineText line ++ ['\n'])

/-- What a line asks for when it is read at a reference time, unless its interval is empty. -/
def editOf (referenceTime : Int) : PlanLine → Option Edit
  | .contact start stop fromNode toNode datarate =>
    if stop ≤ start then none
    else some (.insertContact (referenceTime + start) (referenceTime + stop) fromNode toNode datarate 1)
  | .range start stop fromNode toNode owlt =>
    if stop ≤ start then none
    else some (.insertRange (referenceTime + start) (referenceTime + stop) fromNode toNode owlt)

/-- The numbers on a line are integers of the generator, of 32 bits and not negative. -/
def Fits : PlanLine → Prop
  | .contact start stop fromNode toNode datarate =>
    start < 2 ^ 31 ∧ stop < 2 ^ 31 ∧ fromNode < 2 ^ 31 ∧ toNode < 2 ^ 31 ∧ datarate < 2 ^ 31
  | .range start stop fromNode toNode owlt =>
    start < 2 ^ 31 ∧ stop < 2 ^ 31 ∧ fromNode < 2 ^ 31 ∧ toNode < 2 ^ 31 ∧ owlt < 2 ^ 31

instance (line : PlanLine) : Decidable (Fits line) := by
  cases line
  · exact inferInstanceAs (Decidable (_ ∧ _))
  · exact inferInstanceAs (Decidable (_ ∧ _))

/-- A word of a line: neither empty nor with a character at which words end, or a quote. -/
structure Word (w : CString) : Prop where
  ne_nil : w ≠ []
  no_space : ∀ c ∈ w, isspace c = false
  no_quote : quoteMark ∉ w

theorem word_of_digits {w : CString} (hne : w ≠ []) (h : ∀ c ∈ w, c.isDigit = true) : Word w where
  ne_nil := hne
  no_space c hc := isspace_of_isDigit (h c hc)
  no_quote hq := absurd (h _ hq) (by decide)

theorem word_decimal (n : Nat) : Word (decimal n) :=
  word_of_digits (decimal_ne_nil n) (fun _ hc => isDigit_decimal hc)

theorem word_offset (n : Nat) : Word (offset n) where
  ne_nil := List.cons_ne_nil _ _
  no_space c hc := by
    cases List.mem_cons.mp hc with
    | inl hplus => exact hplus ▸ by decide
    | inr hdigit => exact (word_decimal n).no_space c hdigit
  no_quote hq := by
    cases List.mem_cons.mp hq with
    | inl hplus => exact absurd hplus (by decide)
    | inr hdigit => exact (word_decimal n).no_quote hdigit

@[simp] theorem tabbed_cons (w : CString) (ws : List CString) : tabbed (w :: ws) = '\t' :: (w ++ tabbed ws) := rfl

/-- Words behind tabs are the words of the text. -/
theorem words_tabbed {ws : List CString} (h : ∀ w ∈ ws, Word w) : words isspace (tabbed ws) = ws := by
  induction ws with
  | nil => rfl
  | cons w rest ih =>
    have hw := h w List.mem_cons_self
    have hrest := ih (fun v hv => h v (List.mem_cons_of_mem _ hv))
    rw [tabbed_cons, words_cons_sep (by decide)]
    cases rest with
    | nil =>
      simp only [tabbed, List.flatMap_nil, List.append_nil]
      exact words_of_word hw.no_space hw.ne_nil
    | cons v rest =>
      rw [tabbed_cons, words_word_append hw.no_space hw.ne_nil (by decide)]
      rw [tabbed_cons, words_cons_sep (by decide)] at hrest
      rw [hrest]

theorem quote_not_mem_tabbed {ws : List CString} (h : ∀ w ∈ ws, Word w) : quoteMark ∉ tabbed ws := by
  intro hq
  obtain ⟨w, hw, hmem⟩ := List.mem_flatMap.mp hq
  cases List.mem_cons.mp hmem with
  | inl htab => exact absurd htab (by decide)
  | inr hmem => exact (h w hw).no_quote hmem

theorem isspace_blank : isspace ' ' = true := rfl

/-- A text that ends with a word does not end with space. -/
theorem rtakeWhile_commandLine (kind : CString) {ws : List CString} {w : CString} (hw : Word w) :
    (commandLine kind (ws ++ [w])).rtakeWhile isspace = [] := by
  have hsplit : commandLine kind (ws ++ [w]) = 'a' :: ' ' :: (kind ++ ' ' :: tabbed ws) ++ ['\t'] ++ w := by
    simp [commandLine, tabbed]
  have hlast : w.rtakeWhile isspace = [] :=
    List.rtakeWhile_eq_nil_iff.mpr (fun hl => by simp [hw.no_space _ (List.getLast_mem hl)])
  obtain ⟨c, hc⟩ := List.exists_mem_of_ne_nil w hw.ne_nil
  rw [hsplit, rtakeWhile_append_of_exists _ ⟨c, hc, hw.no_space c hc⟩, hlast]

theorem words_commandLine {kind : CString} (hkind : Word kind) {ws : List CString} (h : ∀ v ∈ ws, Word v) :
    words isspace (commandLine kind ws) = ['a'] :: kind :: ws := by
  have hcode : commandLine kind ws = ['a'] ++ ' ' :: (kind ++ ' ' :: tabbed ws) := rfl
  rw [hcode, words_word_append (by simp [isspace]) (by simp) isspace_blank,
    words_word_append hkind.no_space hkind.ne_nil isspace_blank, words_tabbed h]

theorem quote_not_mem_commandLine {kind : CString} (hkind : Word kind) {ws : List CString} (h : ∀ v ∈ ws, Word v) :
    quoteMark ∉ commandLine kind ws := by
  have hcode : quoteMark ≠ 'a' ∧ quoteMark ≠ ' ' := by decide
  simp only [commandLine, List.mem_cons, List.mem_append, hcode, false_or, not_or]
  exact ⟨hkind.no_quote, quote_not_mem_tabbed h⟩

/-- A command has its code, its kind and what is added as tokens. -/
theorem commandTokens_commandLine {kind : CString} (hkind : Word kind) {ws : List CString} {w : CString}
    (h : ∀ v ∈ ws ++ [w], Word v) (hfew : ws.length < 6) :
    commandTokens (commandLine kind (ws ++ [w])) = some ((['a'] :: kind :: (ws ++ [w])).map some) := by
  have hw : Word w := h w (by simp)
  have hloose : ¬ Loose (commandLine kind (ws ++ [w])) := by
    rw [Loose, words_commandLine hkind h, if_neg (by simp), rtakeWhile_commandLine kind hw]
    simp
  rw [commandTokens_words (quote_not_mem_commandLine hkind h), words_commandLine hkind h, if_neg (by simp; omega),
    if_neg (fun hl => hloose hl.2), List.append_nil]

theorem readTimestampUTC_offset {time : Nat} (h : time < 2 ^ 63) (referenceTime : Int) :
    readTimestampUTC (some (offset time)) referenceTime = referenceTime + time := by
  simp only [readTimestampUTC, offset, strtol_decimal (Or.inl rfl) h]

/-- The command that a line is. -/
def commandOf (referenceTime : Int) (line : PlanLine) : Command :=
  match editOf referenceTime line with
  | none => .nothing
  | some e => .edit e

theorem toUnsigned_of_lt {n : Nat} (h : n < 2 ^ 32) : toUnsigned n = n := by
  unfold toUnsigned
  omega

/-- The tokens of an addition without a probability. -/
theorem readLine_commandLine (atof : CString → ℚ) (referenceTime now : Int) {kind : CString} (hkind : Word kind)
    {start stop fromNode toNode amount : Nat} :
    readLine atof referenceTime now
        (commandLine kind [offset start, offset stop, decimal fromNode, decimal toNode, decimal amount]) =
      executeAdd atof referenceTime ([some ['a'], some kind, some (offset start), some (offset stop),
        some (decimal fromNode), some (decimal toNode), some (decimal amount)]) := by
  have htokens := @commandTokens_commandLine kind hkind [offset start, offset stop, decimal fromNode, decimal toNode]
    (decimal amount) (by simp [word_offset, word_decimal]) (by simp)
  rw [List.cons_append, List.cons_append, List.cons_append, List.cons_append, List.nil_append] at htokens
  rw [readLine_eq, htokens]
  rfl

/-- What an addition becomes once its numbers are read. -/
theorem executeAdd_numbers (atof : CString → ℚ) (referenceTime : Int) (kind : CString)
    {start stop fromNode toNode : Nat} (amount : Nat) (h1 : start < 2 ^ 31) (h2 : stop < 2 ^ 31) (h3 : fromNode < 2 ^ 31)
    (h4 : toNode < 2 ^ 31) :
    executeAdd atof referenceTime ([some ['a'], some kind, some (offset start), some (offset stop),
        some (decimal fromNode), some (decimal toNode), some (decimal amount)]) =
      if stop ≤ start then some .nothing
      else if kind = contactWord then
        some (.edit (.insertContact (referenceTime + start) (referenceTime + stop) fromNode toNode
          (toUnsigned (strtol 0 (decimal amount))) 1))
      else if kind = rangeWord then
        some (.edit (.insertRange (referenceTime + start) (referenceTime + stop) fromNode toNode
          (toUnsigned (strtol 10 (decimal amount)))))
      else some .nothing := by
  have hstart := readTimestampUTC_offset (show start < 2 ^ 63 by omega) referenceTime
  have hstop := readTimestampUTC_offset (show stop < 2 ^ 63 by omega) referenceTime
  have hfrom := strtouvast_decimal (show fromNode < 2 ^ 64 by omega)
  have hto := strtouvast_decimal (show toNode < 2 ^ 64 by omega)
  simp [executeAdd, token, hstart, hstop, hfrom, hto]

/-- A line is read back as what was written. -/
theorem readLine_lineText (atof : CString → ℚ) (referenceTime now : Int) {line : PlanLine} (h : Fits line) :
    readLine atof referenceTime now (lineText line) = some (commandOf referenceTime line) := by
  cases line with
  | contact start stop fromNode toNode datarate =>
    obtain ⟨h1, h2, h3, h4, h5⟩ := h
    have hrate : toUnsigned (strtol 0 (decimal datarate)) = datarate := by
      rw [strtol_decimal (Or.inl rfl) (by omega), toUnsigned_of_lt (by omega)]
    rw [lineText, readLine_commandLine atof referenceTime now ⟨by decide, by simp [contactWord, isspace], by decide⟩,
      executeAdd_numbers atof referenceTime contactWord datarate h1 h2 h3 h4, if_pos rfl, hrate, commandOf, editOf]
    split <;> rfl
  | range start stop fromNode toNode owlt =>
    obtain ⟨h1, h2, h3, h4, h5⟩ := h
    have howlt : toUnsigned (strtol 10 (decimal owlt)) = owlt := by
      rw [strtol_decimal (Or.inr rfl) (by omega), toUnsigned_of_lt (by omega)]
    rw [lineText, readLine_commandLine atof referenceTime now ⟨by decide, by simp [rangeWord, isspace], by decide⟩,
      executeAdd_numbers atof referenceTime rangeWord owlt h1 h2 h3 h4, if_neg (show ¬ rangeWord = contactWord by decide),
      if_pos rfl, howlt,
      commandOf, editOf]
    split <;> rfl

/-! The file as a whole. -/

/-- What stands on a line: no newline, no null, and less than the buffer of `runIonadmin` holds. -/
structure Readable (text : CString) : Prop where
  one_line : '\n' ∉ text
  no_null : NoNull text
  fits : text.length < 256

theorem printable_of_digits {w : CString} (h : ∀ c ∈ w, c.isDigit = true) : '\n' ∉ w ∧ NoNull w := by
  constructor
  · intro hmem
    exact absurd (h _ hmem) (by decide)
  · intro c hc
    have hlow : '0' ≤ c := (isDigit_iff.mp (h c hc)).1
    have hle : 48 ≤ c.toNat := hlow
    omega

theorem readable_tabbed {ws : List CString} (h : ∀ w ∈ ws, '\n' ∉ w ∧ NoNull w ∧ w.length ≤ 11) :
    '\n' ∉ tabbed ws ∧ NoNull (tabbed ws) ∧ (tabbed ws).length ≤ 12 * ws.length := by
  induction ws with
  | nil => simp [tabbed, NoNull]
  | cons w rest ih =>
    obtain ⟨hline, hnull, hlength⟩ := h w List.mem_cons_self
    obtain ⟨hline', hnull', hlength'⟩ := ih (fun v hv => h v (List.mem_cons_of_mem _ hv))
    refine ⟨?_, ?_, ?_⟩
    · simp [hline, hline']
    · intro c hc
      rw [tabbed_cons, List.mem_cons, List.mem_append] at hc
      obtain rfl | hc | hc := hc
      · decide
      · exact hnull c hc
      · exact hnull' c hc
    · simp only [tabbed_cons, List.length_cons, List.length_append]
      omega

theorem readable_decimal {n : Nat} (h : n < 2 ^ 31) :
    '\n' ∉ decimal n ∧ NoNull (decimal n) ∧ (decimal n).length ≤ 10 := by
  obtain ⟨hline, hnull⟩ := printable_of_digits (w := decimal n) (fun c hc => isDigit_decimal hc)
  exact ⟨hline, hnull, decimal_length_le (by decide) (by omega)⟩

theorem readable_word {n : Nat} (h : n < 2 ^ 31) :
    ('\n' ∉ decimal n ∧ NoNull (decimal n) ∧ (decimal n).length ≤ 11) ∧
      ('\n' ∉ offset n ∧ NoNull (offset n) ∧ (offset n).length ≤ 11) := by
  obtain ⟨hline, hnull, hlength⟩ := readable_decimal h
  refine ⟨⟨hline, hnull, by omega⟩, ?_, ?_, ?_⟩
  · simp [offset, hline]
  · intro c hc
    cases List.mem_cons.mp hc with
    | inl hplus => exact hplus ▸ by decide
    | inr hdigit => exact hnull c hdigit
  · simp only [offset, List.length_cons]
    omega

theorem readable_commandLine {kind : CString} (hkind : '\n' ∉ kind ∧ NoNull kind ∧ kind.length ≤ 10)
    {start stop fromNode toNode amount : Nat} (h1 : start < 2 ^ 31) (h2 : stop < 2 ^ 31) (h3 : fromNode < 2 ^ 31)
    (h4 : toNode < 2 ^ 31) (h5 : amount < 2 ^ 31) :
    Readable (commandLine kind [offset start, offset stop, decimal fromNode, decimal toNode, decimal amount]) := by
  have hwords : ∀ w ∈ [offset start, offset stop, decimal fromNode, decimal toNode, decimal amount],
      '\n' ∉ w ∧ NoNull w ∧ w.length ≤ 11 := by
    simp only [List.forall_mem_cons, List.not_mem_nil, false_implies, implies_true, and_true]
    exact ⟨(readable_word h1).2, (readable_word h2).2, (readable_word h3).1, (readable_word h4).1, (readable_word h5).1⟩
  obtain ⟨hline, hnull, hlength⟩ := readable_tabbed hwords
  refine ⟨?_, ?_, ?_⟩
  · simp only [commandLine, List.mem_cons, List.mem_append, not_or]
    exact ⟨by decide, by decide, hkind.1, by decide, hline⟩
  · intro c hc
    simp only [commandLine, List.mem_cons, List.mem_append] at hc
    obtain rfl | rfl | hc | rfl | hc := hc
    · decide
    · decide
    · exact hkind.2.1 c hc
    · decide
    · exact hnull c hc
  · simp only [commandLine, List.length_cons, List.length_append, List.length_nil] at hlength ⊢
    omega

theorem readable_lineText {line : PlanLine} (h : Fits line) : Readable (lineText line) := by
  cases line with
  | contact start stop fromNode toNode datarate =>
    obtain ⟨h1, h2, h3, h4, h5⟩ := h
    exact readable_commandLine ⟨by decide, by simp [NoNull, contactWord], by decide⟩ h1 h2 h3 h4 h5
  | range start stop fromNode toNode owlt =>
    obtain ⟨h1, h2, h3, h4, h5⟩ := h
    exact readable_commandLine ⟨by decide, by simp [NoNull, rangeWord], by decide⟩ h1 h2 h3 h4 h5

theorem lines_newline {text : CString} (h : '\n' ∉ text) (file : CString) :
    lines (text ++ '\n' :: file) = text :: lines file := by
  induction text with
  | nil => rfl
  | cons c rest ih =>
    rw [List.mem_cons, not_or] at h
    rw [List.cons_append, lines, if_neg (Ne.symm h.1), ih h.2]

/-- The lines of the file are the lines of the plan. -/
theorem lines_fileText {plan : List PlanLine} (h : ∀ line ∈ plan, Fits line) :
    lines (fileText plan) = plan.map lineText := by
  induction plan with
  | nil => rfl
  | cons line rest ih =>
    have hrest := ih (fun l hl => h l (List.mem_cons_of_mem _ hl))
    have hone := (readable_lineText (h line List.mem_cons_self)).one_line
    rw [fileText, List.flatMap_cons, List.append_assoc, List.singleton_append, lines_newline hone]
    exact congrArg (lineText line :: ·) hrest

theorem readLines_fileText {plan : List PlanLine} (h : ∀ line ∈ plan, Fits line) :
    readLines 256 (fileText plan).length (fileText plan) = plan.map lineText := by
  rw [← lines_fileText h]
  apply readLines_eq_lines _ _ (Nat.le_refl _) (by decide)
  · rw [lines_fileText h]
    intro text htext
    obtain ⟨line, hline, rfl⟩ := List.mem_map.mp htext
    exact (readable_lineText (h line hline)).fits
  · intro c hc
    obtain ⟨line, hline, hmem⟩ := List.mem_flatMap.mp hc
    cases List.mem_append.mp hmem with
    | inl htext => exact (readable_lineText (h line hline)).no_null c htext
    | inr hnewline => exact List.mem_singleton.mp hnewline ▸ by decide

/-- A line is an edit of the node's plan, or nothing. -/
theorem processLine_lineText (atof : CString → ℚ) (p : AdminProcess) (nodeNbr : Nat) (now : Int) {line : PlanLine}
    (h : Fits line) : processLine atof p nodeNbr now (lineText line) =
      (match editOf p.referenceTime line with
        | none => some p.nodes
        | some e => editNode p.nodes nodeNbr now e).map (fun nodes => (⟨nodes, p.referenceTime⟩, 0)) := by
  rw [processLine, readLine_lineText atof p.referenceTime now h, commandOf]
  cases editOf p.referenceTime line with
  | none => rfl
  | some e =>
    simp only [Option.bind_eq_bind, Option.bind_some, executeCommand]
    cases editNode p.nodes nodeNbr now e <;> rfl

theorem lineText_command (line : PlanLine) : (lineText line).head? = some 'a' := by
  cases line <;> rfl

theorem processLines_fileText (atof : CString → ℚ) (nodeNbr : Nat) (now : Int) {plan : List PlanLine}
    (h : ∀ line ∈ plan, Fits line) (p : AdminProcess) :
    processLines atof nodeNbr now (plan.map lineText) p =
      (Runs.run (fun nodes e => editNode nodes nodeNbr now e) p.nodes (plan.filterMap (editOf p.referenceTime))).map
        (fun nodes => ⟨nodes, p.referenceTime⟩) := by
  induction plan generalizing p with
  | nil => rfl
  | cons line rest ih =>
    have hrest := fun p => ih (fun l hl => h l (List.mem_cons_of_mem _ hl)) p
    have hcode := lineText_command line
    have hread : ¬ (lineText line = [] ∨ (lineText line).head? = some '#') := by
      rw [hcode]
      rintro (hnil | hcomment)
      · rw [hnil] at hcode
        cases hcode
      · exact absurd (Option.some.inj hcomment) (by decide)
    rw [List.map_cons, processLines, if_neg hread, processLine_lineText atof p nodeNbr now (h line List.mem_cons_self),
      List.filterMap_cons]
    cases editOf p.referenceTime line with
    | none => exact hrest ⟨p.nodes, p.referenceTime⟩
    | some e =>
      simp only [Runs.run_cons]
      cases editNode p.nodes nodeNbr now e with
      | none => rfl
      | some nodes => exact hrest ⟨nodes, p.referenceTime⟩

/-- A plan that the generator has written, read back by a node, is its lines as edits of the plan of
the node, in their order, with all times counted from the time of the call. -/
theorem runIonadmin_fileText (atof : CString → ℚ) (p : AdminProcess) (nodeNbr : Nat) (now : Int) (plan : List PlanLine)
    (h : ∀ line ∈ plan, Fits line) :
    runIonadmin atof p nodeNbr now (some (fileText plan)) =
      (Runs.run (fun nodes e => editNode nodes nodeNbr now e) p.nodes (plan.filterMap (editOf now))).map
        (fun nodes => ⟨nodes, now⟩) := by
  rw [runIonadmin]
  simp only [readLines_fileText h]
  exact processLines_fileText atof nodeNbr now h _

/-- A connection of ten seconds, and one that is over before a second has passed. -/
def twoLines : List PlanLine := [.range 10 20 1 2 1, .contact 30 30 1 2 100]

theorem runIonadmin_fileText_twoLines :
    runIonadmin (fun _ => 1) ⟨initializeNode IonProcess.start 1, 0⟩ 1 1000 (some (fileText twoLines)) =
      (Runs.run (fun nodes e => editNode nodes 1 1000 e) (initializeNode IonProcess.start 1)
        (twoLines.filterMap (editOf 1000))).map (fun nodes => ⟨nodes, 1000⟩) :=
  runIonadmin_fileText (fun _ => 1) ⟨initializeNode IonProcess.start 1, 0⟩ 1 1000 twoLines (by decide)

example : twoLines.filterMap (editOf 1000) = [.insertRange 1010 1020 1 2 1] := rfl

end PlanText
