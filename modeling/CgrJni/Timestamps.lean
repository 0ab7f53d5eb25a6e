import CgrJni.Calendar
import CgrJni.PlanText
import CgrJni.RfxContacts

/-!
The timestamps that a listing of the plan shows, and what becomes of them when they are
typed in again: they are read back as the same times, and the line that deletes a contact
by its shown start deletes just that contact.
-/

namespace Timestamps

open IonDb Platform Numerals Calendar Words Ionadmin CommandLines PlanText Process Rfx RfxContacts

/-- A time of day on a day of the calendar. -/
structure Tm where
  date : Date
  hour : Int
  min : Int
  sec : Int
  deriving DecidableEq

structure Tm.Valid (ts : Tm) : Prop where
  date : ts.date.Valid
  hour : 0 ≤ ts.hour ∧ ts.hour < 24
  min : 0 ≤ ts.min ∧ ts.min < 60
  sec : 0 ≤ ts.sec ∧ ts.sec < 60

/-- What `gmtime_r` makes of a time, where the year is one that an `int` holds. -/
def gmtime (timestamp : Int) : Tm where
  date := civil (timestamp / 86400 + 719468)
  hour := timestamp % 86400 / 3600
  min := timestamp % 3600 / 60
  sec := timestamp % 60

/-- A number as `%.nd` prints it. -/
def precision (digits : Nat) (n : Int) : CString :=
  if n < 0 then '-' :: padded digits n.natAbs else padded digits n.toNat

/-- The output format of timestamps. -/
def timestampText (ts : Tm) : CString :=
  precision 4 ts.date.year ++ '/' :: (precision 2 (ts.date.mon + 1) ++ '/' :: (precision 2 ts.date.mday ++
    '-' :: (precision 2 ts.hour ++ ':' :: (precision 2 ts.min ++ ':' :: precision 2 ts.sec))))

/-- The buffer has room for nineteen characters. -/
def writeTimestampUTC (timestamp : Int) : CString := (timestampText (gmtime timestamp)).take 19

/-- The time at which a clock shows a date and a time of day. -/
def Tm.time (ts : Tm) : Int := mktimeUTC ts.date.year ts.date.mon ts.date.mday ts.hour ts.min ts.sec

/-- The year has at most four digits. -/
def Tm.Printable (ts : Tm) : Prop := 0 ≤ ts.date.year ∧ ts.date.year ≤ 9999

theorem gmtime_valid (t : Int) : (gmtime t).Valid where
  date := civil_valid _
  hour := by
    simp only [gmtime]
    omega
  min := by
    simp only [gmtime]
    omega
  sec := by
    simp only [gmtime]
    omega

theorem time_eq {ts : Tm} (h : ts.date.Valid) :
    ts.time = (((ts.date.count - 719468) * 24 + ts.hour) * 60 + ts.min) * 60 + ts.sec := by
  have hmon := h.mon_nonneg
  have hmon' := h.mon_lt
  have hyear : ts.date.mon / 12 = 0 := by omega
  have hmonth : ts.date.mon % 12 = ts.date.mon := by omega
  have hdays : daysToMonth ts.date.year ts.date.mon + (ts.date.mday - 1) = ts.date.count - 719468 := by
    unfold daysToMonth Date.count Date.fromMarch yearStart monthStart
    dsimp only
    split <;> (dsimp only; omega)
  rw [Tm.time, mktimeUTC, hyear, hmonth, add_zero, hdays]

theorem time_gmtime (t : Int) : (gmtime t).time = t := by
  rw [time_eq (gmtime_valid t).date]
  simp only [gmtime, count_civil]
  omega

theorem gmtime_time {ts : Tm} (h : ts.Valid) : gmtime ts.time = ts := by
  obtain ⟨date, hour, min, sec⟩ := ts
  have hhour := h.hour
  have hmin := h.min
  have hsec := h.sec
  have hcount := civil_count h.date
  rw [time_eq h.date]
  dsimp only at hhour hmin hsec hcount ⊢
  unfold gmtime
  have hday : ((((date.count - 719468) * 24 + hour) * 60 + min) * 60 + sec) / 86400 + 719468 = date.count := by omega
  rw [hday, hcount]
  congr 1 <;> omega

theorem padded_cons {width n : Nat} (hw : 0 < width) (h : n < 10 ^ width) :
    ∃ c rest, padded width n = c :: rest ∧ c.isDigit = true := by
  have hlength := padded_length hw h
  cases hp : padded width n with
  | nil =>
    rw [hp, List.length_nil] at hlength
    omega
  | cons c rest => exact ⟨c, rest, rfl, @isDigit_padded width n c (hp ▸ List.mem_cons_self)⟩

/-- A number that fills its field is read as itself, and what follows is left. -/
theorem scanInt_padded {width n : Nat} (hw : 0 < width) (h : n < 10 ^ width) (rest : CString) :
    scanInt width (padded width n ++ rest) = some ((n : Int), rest) := by
  have hlength := padded_length hw h
  have hdigits : ∀ c ∈ padded width n, c.isDigit = true := fun c hc => isDigit_padded hc
  obtain ⟨c, more, hcons, hc⟩ := padded_cons hw h
  have hspace : (padded width n ++ rest).dropWhile isspace = padded width n ++ rest := by
    rw [hcons, List.cons_append, List.dropWhile_cons_of_neg (by simp [isspace_of_isDigit hc])]
  have hfield : (padded width n ++ rest).take width = padded width n := List.take_left' hlength
  have hleft : (padded width n ++ rest).drop width = rest := List.drop_left' hlength
  have hsigned : signed (padded width n) = (false, padded width n) := by
    rw [hcons]
    unfold signed
    split
    · simp_all [Char.isDigit]
    · simp_all [Char.isDigit]
    · rfl
  have hall : (padded width n).takeWhile Char.isDigit = padded width n := List.takeWhile_eq_self_iff.mpr hdigits
  unfold scanInt
  dsimp only
  rw [hspace, hfield, hleft, hsigned]
  dsimp only
  rw [hall, if_neg (by simp [hcons]), digits_padded, List.drop_length]
  simp

theorem scanChar_cons (c : Char) (rest : CString) : scanChar c (c :: rest) = some rest := by
  simp [scanChar]

theorem precision_of_nonneg {digits : Nat} {n : Int} (h : 0 ≤ n) : precision digits n = padded digits n.toNat :=
  if_neg (not_lt.mpr h)

theorem scanInt_precision {digits : Nat} {n : Int} (hd : 0 < digits) (h : 0 ≤ n) (hn : n.toNat < 10 ^ digits)
    (rest : CString) : scanInt digits (precision digits n ++ rest) = some (n, rest) := by
  rw [precision_of_nonneg h, scanInt_padded hd hn, Int.toNat_of_nonneg h]

theorem monthLength_le (year mon : Int) : monthLength year mon ≤ 31 := by
  unfold monthLength
  repeat' split
  all_goals omega

/-- The numbers of a timestamp fit the fields that they are printed in. -/
theorem Tm.Valid.fields {ts : Tm} (h : ts.Valid) : (0 ≤ ts.date.mon + 1 ∧ (ts.date.mon + 1).toNat < 10 ^ 2) ∧
    (0 ≤ ts.date.mday ∧ ts.date.mday.toNat < 10 ^ 2) ∧ (0 ≤ ts.hour ∧ ts.hour.toNat < 10 ^ 2) ∧
    (0 ≤ ts.min ∧ ts.min.toNat < 10 ^ 2) ∧ (0 ≤ ts.sec ∧ ts.sec.toNat < 10 ^ 2) := by
  obtain ⟨⟨hmon, hmon', hmday, hmday'⟩, hhour, hmin, hsec⟩ := h
  have hlength := monthLength_le ts.date.year ts.date.mon
  exact ⟨by omega, by omega, by omega, by omega, by omega⟩

/-- A timestamp that is printed is read field by field. -/
theorem scanTimestamp_text {ts : Tm} (h : ts.Valid) (hyear : ts.Printable) :
    scanTimestamp (timestampText ts) =
      some (ts.date.year, ts.date.mon + 1, ts.date.mday, ts.hour, ts.min, ts.sec) := by
  obtain ⟨hmon, hmday, hhour, hmin, hsec⟩ := h.fields
  have hlast := scanInt_precision (show 0 < 2 by decide) hsec.1 hsec.2 []
  rw [List.append_nil] at hlast
  unfold scanTimestamp timestampText
  rw [scanInt_precision (by decide) hyear.1 (show ts.date.year.toNat < 10 ^ 4 by have := hyear.2; omega)]
  simp only [Option.bind_eq_bind, Option.bind_some, Option.pure_def, scanChar_cons,
    scanInt_precision (show 0 < 2 by decide) hmon.1 hmon.2, scanInt_precision (show 0 < 2 by decide) hmday.1 hmday.2,
    scanInt_precision (show 0 < 2 by decide) hhour.1 hhour.2, scanInt_precision (show 0 < 2 by decide) hmin.1 hmin.2, hlast]

theorem timestampText_length {ts : Tm} (h : ts.Valid) (hyear : ts.Printable) : (timestampText ts).length = 19 := by
  obtain ⟨hmon, hmday, hhour, hmin, hsec⟩ := h.fields
  have h4 : (precision 4 ts.date.year).length = 4 := by
    rw [precision_of_nonneg hyear.1, padded_length (by decide) (by have := hyear.2; omega)]
  have h2 : ∀ n : Int, 0 ≤ n ∧ n.toNat < 10 ^ 2 → (precision 2 n).length = 2 := by
    intro n hn
    rw [precision_of_nonneg hn.1, padded_length (by decide) hn.2]
  simp [timestampText, h4, h2 _ hmon, h2 _ hmday, h2 _ hhour, h2 _ hmin, h2 _ hsec]

/-- A timestamp does not begin like an offset. -/
theorem readTimestampUTC_text {ts : Tm} (h : ts.Valid) (hyear : ts.Printable) (referenceTime : Int) :
    readTimestampUTC (some (timestampText ts)) referenceTime = ts.time := by
  obtain ⟨c, rest, hcons, hc⟩ := padded_cons (show 0 < 4 by decide)
    (show ts.date.year.toNat < 10 ^ 4 by have := hyear.2; omega)
  have hscan := scanTimestamp_text h hyear
  have hhead : ∃ more, timestampText ts = c :: more := by
    rw [timestampText, precision_of_nonneg hyear.1, hcons]
    exact ⟨_, rfl⟩
  obtain ⟨more, hmore⟩ := hhead
  have hplus : c ≠ '+' := by
    rintro rfl
    cases hc
  rw [hmore] at hscan ⊢
  unfold readTimestampUTC
  split
  · simp_all
  · simp_all
  · rename_i s _ heq
    obtain rfl := Option.some.inj heq
    rw [hscan]
    simp [Tm.time]

/-- The times of the years that are printed with four digits. -/
theorem gmtime_printable {t : Int} : (gmtime t).Printable ↔ -62167219200 ≤ t ∧ t < 253402300800 := by
  have hfirst : yearStart (0 - 1) + monthStart 10 = -60 := by decide
  have hlast : yearStart (10000 - 1) + monthStart 10 = 3652365 := by decide
  have hzero := @le_year_civil (t / 86400 + 719468) 0
  have hlimit := @le_year_civil (t / 86400 + 719468) 10000
  rw [hfirst] at hzero
  rw [hlast] at hlimit
  unfold Tm.Printable gmtime
  dsimp only
  omega

theorem writeTimestampUTC_time {ts : Tm} (h : ts.Valid) (hyear : ts.Printable) :
    writeTimestampUTC ts.time = timestampText ts := by
  rw [writeTimestampUTC, gmtime_time h]
  exact List.take_of_length_le (timestampText_length h hyear).le

theorem writeTimestampUTC_eq {t : Int} (h : -62167219200 ≤ t ∧ t < 253402300800) :
    writeTimestampUTC t = timestampText (gmtime t) :=
  List.take_of_length_le (timestampText_length (gmtime_valid t) (gmtime_printable.mpr h)).le

theorem readTimestampUTC_written {t : Int} (h : -62167219200 ≤ t ∧ t < 253402300800) (referenceTime : Int) :
    readTimestampUTC (some (writeTimestampUTC t)) referenceTime = t := by
  rw [writeTimestampUTC_eq h, readTimestampUTC_text (gmtime_valid t) (gmtime_printable.mpr h), time_gmtime]

/-- What is written is read back as the same time, and a date and time of day that is typed in the
form of the output is shown just as it was typed. -/
theorem timestamps_round_trip (referenceTime : Int) :
    (∀ t, -62167219200 ≤ t ∧ t < 253402300800 → readTimestampUTC (some (writeTimestampUTC t)) referenceTime = t) ∧
    (∀ ts : Tm, ts.Valid → ts.Printable →
      writeTimestampUTC (readTimestampUTC (some (timestampText ts)) referenceTime) = timestampText ts) := by
  constructor
  · intro t h
    exact readTimestampUTC_written h referenceTime
  · intro ts h hyear
    rw [readTimestampUTC_text h hyear, writeTimestampUTC_time h hyear]

/-! Deleting what is shown. -/

/-- The start of a contact can be shown, and its nodes can be typed in. -/
def Shown (c : IonCXref) : Prop :=
  (-62167219200 ≤ c.fromTime ∧ c.fromTime < 253402300800) ∧ c.fromNode < 2 ^ 64 ∧ c.toNode < 2 ^ 64

instance (c : IonCXref) : Decidable (Shown c) := inferInstanceAs (Decidable (_ ∧ _))

def deleteWords (c : IonCXref) : List CString :=
  [['d'], contactWord, writeTimestampUTC c.fromTime, decimal c.fromNode, decimal c.toNode]

/-- A line that deletes a contact by the start that is shown, however its words are set apart. -/
structure DeleteLine (c : IonCXref) (line : CString) : Prop where
  no_quote : quoteMark ∉ line
  words : words isspace line = deleteWords c
  not_loose : ¬ Loose line

/-- The words of a line behind tabs. -/
def deleteText (c : IonCXref) : CString :=
  'd' :: tabbed [contactWord, writeTimestampUTC c.fromTime, decimal c.fromNode, decimal c.toNode]

theorem word_timestamp {t : Int} (h : -62167219200 ≤ t ∧ t < 253402300800) : Word (writeTimestampUTC t) := by
  obtain ⟨hmon, hmday, hhour, hmin, hsec⟩ := (gmtime_valid t).fields
  have hyear := gmtime_printable.mpr h
  have hall : ∀ c ∈ writeTimestampUTC t, c.isDigit = true ∨ c = '/' ∨ c = '-' ∨ c = ':' := by
    intro c hc
    rw [writeTimestampUTC_eq h, timestampText, precision_of_nonneg hyear.1, precision_of_nonneg hmon.1,
      precision_of_nonneg hmday.1, precision_of_nonneg hhour.1, precision_of_nonneg hmin.1, precision_of_nonneg hsec.1] at hc
    simp only [List.mem_append, List.mem_cons] at hc
    obtain hc | rfl | hc | rfl | hc | rfl | hc | rfl | hc | rfl | hc := hc
    all_goals first | exact Or.inl (isDigit_padded hc) | simp
  refine ⟨?_, ?_, ?_⟩
  · intro hnil
    have hlength := timestampText_length (gmtime_valid t) hyear
    rw [← writeTimestampUTC_eq h, hnil] at hlength
    cases hlength
  · intro c hc
    obtain hdigit | rfl | rfl | rfl := hall c hc
    · exact isspace_of_isDigit hdigit
    all_goals decide
  · intro hc
    exact absurd (hall _ hc) (by decide)

theorem deleteLine_text {c : IonCXref} (hc : Shown c) : DeleteLine c (deleteText c) := by
  have hwords : ∀ w ∈ [contactWord, writeTimestampUTC c.fromTime, decimal c.fromNode, decimal c.toNode], Word w := by
    simp only [List.forall_mem_cons, List.not_mem_nil, false_implies, implies_true, and_true]
    exact ⟨⟨by decide, by simp [contactWord, isspace], by decide⟩, word_timestamp hc.1, word_decimal _, word_decimal _⟩
  have htext : words isspace (deleteText c) = deleteWords c := by
    have htabbed := words_tabbed hwords
    rw [tabbed_cons, words_cons_sep (by decide)] at htabbed
    have hcode : deleteText c = ['d'] ++ '\t' :: (contactWord ++
        tabbed [writeTimestampUTC c.fromTime, decimal c.fromNode, decimal c.toNode]) := rfl
    rw [hcode, words_word_append (by simp [isspace]) (by simp) (by decide), htabbed]
    rfl
  refine ⟨?_, htext, ?_⟩
  · rw [deleteText, List.mem_cons, not_or]
    exact ⟨by decide, quote_not_mem_tabbed hwords⟩
  · have hlast : (decimal c.toNode).rtakeWhile isspace = [] :=
      List.rtakeWhile_eq_nil_iff.mpr (fun hl => by simp [(word_decimal c.toNode).no_space _ (List.getLast_mem hl)])
    obtain ⟨d, hd⟩ := List.exists_mem_of_ne_nil _ (decimal_ne_nil c.toNode)
    have hsplit : deleteText c = 'd' :: tabbed [contactWord, writeTimestampUTC c.fromTime, decimal c.fromNode] ++ ['\t'] ++
        decimal c.toNode := by
      simp [deleteText, tabbed]
    rw [Loose, htext, if_neg (by simp [deleteWords]), hsplit,
      rtakeWhile_append_of_exists _ ⟨d, hd, (word_decimal c.toNode).no_space d hd⟩, hlast]
    simp

theorem readLine_deleteLine (atof : CString → ℚ) (referenceTime now : Int) {c : IonCXref} {line : CString}
    (hc : Shown c) (h : DeleteLine c line) : readLine atof referenceTime now line =
      some (.edit (.removeContact c.fromTime c.fromNode c.toNode)) := by
  obtain ⟨htime, hfrom, hto⟩ := hc
  have hread := readTimestampUTC_written htime referenceTime
  have htokens : commandTokens line = some ((deleteWords c).map some) := by
    rw [commandTokens_words h.no_quote, h.words, if_neg (by simp [deleteWords]), if_neg (fun hl => h.not_loose hl.2),
      List.append_nil]
  have hstar : (writeTimestampUTC c.fromTime).head? ≠ some '*' := by
    intro hhead
    rw [writeTimestampUTC_eq htime, timestampText, precision_of_nonneg (gmtime_printable.mpr htime).1] at hhead
    obtain ⟨d, rest, hcons, hd⟩ := padded_cons (show 0 < 4 by decide)
      (show (gmtime c.fromTime).date.year.toNat < 10 ^ 4 by
        have := (gmtime_printable.mpr htime).2
        omega)
    rw [hcons, List.cons_append, List.head?_cons, Option.some.injEq] at hhead
    subst hhead
    cases hd
  have hne : c.fromTime ≠ 0 := c.fromTime_ne
  rw [readLine_eq, htokens]
  simp [deleteWords, token, execute, executeDelete, hread, hstar, hne, strtouvast_decimal hfrom, strtouvast_decimal hto]

/-- A contact of the plan is deleted, and one that is gone is not missed. -/
theorem rfxRemoveContact_shown {s t : IonState} {now : Int} {c : IonCXref}
    (hsame : ∀ d ∈ s.contactIndex, d.toSpan.key = c.toSpan.key → d = c)
    (h : rfxRemoveContact s now c.fromTime c.fromNode c.toNode = some t) :
    (∀ d, d ∈ t.contactIndex ↔ d ∈ s.contactIndex ∧ d ≠ c) ∧ SameRanges s t := by
  refine ⟨?_, rfxRemoveContact_sameRanges s now c.fromTime c.fromNode c.toNode t h⟩
  unfold rfxRemoveContact at h
  rw [if_pos c.fromTime_ne] at h
  cases hfound : s.contactIndex.lookup (toLex (toLex (c.fromNode, c.toNode), c.fromTime)) with
  | none =>
    rw [hfound] at h
    obtain rfl := Option.some.inj h
    have hnone := SortedIndex.lookup_eq_none.mp hfound
    intro d
    exact ⟨fun hd => ⟨hd, fun he => hnone d hd (he ▸ rfl)⟩, And.left⟩
  | some e =>
    rw [hfound] at h
    obtain rfl := Option.some.inj h
    obtain ⟨he, hkey⟩ := SortedIndex.lookup_eq_some.mp hfound
    obtain rfl := hsame e he hkey
    intro d
    rw [deleteContact, SortedIndex.mem_erase]
    exact and_congr_right (fun hd => not_congr ⟨fun hk => hsame d hd hk, fun hde => hde ▸ rfl⟩)

variable {atof : CString → ℚ} {nodeNbr : Nat}

/-- A command line at a node that deletes a contact by the start that is shown. -/
def Deletes (nodeNbr : Nat) (c : IonCXref) (a : Addressed) : Prop :=
  a.nodeNbr = nodeNbr ∧ ∃ line, a.call = .processLine line ∧ DeleteLine c line

/-- The plan without some of its contacts. -/
structure Without (gone : List IonCXref) (s t : IonState) : Prop where
  contacts : ∀ d, d ∈ t.contactIndex ↔ d ∈ s.contactIndex ∧ d ∉ gone
  ranges : SameRanges s t

/-- One command: the contact goes from the plan of the node, and no other node is concerned. -/
theorem step_deletes {p : AdminProcess} {part : Partition} (hpart : p.nodes.partitions nodeNbr = some part) {c : IonCXref}
    (hc : Shown c) (hsame : ∀ d ∈ part.ion.contactIndex, d.toSpan.key = c.toSpan.key → d = c) {a : Addressed}
    (ha : Deletes nodeNbr c a) : ∃ ion, Ionadmin.step atof p a =
      some { p with nodes := { p.nodes with
        partitions := Function.update p.nodes.partitions nodeNbr (some { part with ion := ion }) } } ∧
      Without [c] part.ion ion := by
  obtain ⟨n, time, call⟩ := a
  obtain ⟨rfl, line, rfl, hline⟩ := ha
  dsimp only at hpart
  obtain ⟨ion, hrun, -⟩ := rfxRemoveContact_spec (fun _ => True) time c.fromTime c.fromNode c.toNode
    (fun _ _ _ _ _ => trivial) part.ion trivial
  obtain ⟨hcontacts, hranges⟩ := rfxRemoveContact_shown hsame hrun
  refine ⟨ion, ?_, ⟨?_, hranges⟩⟩
  · simp [Ionadmin.step, processLine, readLine_deleteLine atof p.referenceTime time hc hline, executeCommand, editNode, hpart,
      edit, hrun]
  · intro d
    rw [hcontacts d, List.mem_singleton]

/-- Whatever contacts are deleted by their shown starts, in any order and however often, the plan
keeps just the others. -/
theorem shown_contacts_deleted (p : AdminProcess) (part : Partition) (hpart : p.nodes.partitions nodeNbr = some part)
    (cs : List IonCXref) (calls : List Addressed) (hcalls : List.Forall₂ (Deletes nodeNbr) cs calls)
    (hcs : ∀ c ∈ cs, c ∈ part.ion.contactIndex ∧ Shown c) :
    ∃ p' part', Runs.run (Ionadmin.step atof) p calls = some p' ∧ p'.nodes.partitions nodeNbr = some part' ∧
      Without cs part.ion part'.ion ∧ ∀ other ≠ nodeNbr, p'.nodes.partitions other = p.nodes.partitions other := by
  have hkeys : ∀ c ∈ cs, Shown c ∧ ∀ d ∈ part.ion.contactIndex, d.toSpan.key = c.toSpan.key → d = c :=
    fun c hc => ⟨(hcs c hc).2, fun d hd hkey => SortedIndex.key_inj hd (hcs c hc).1 hkey⟩
  clear hcs
  induction hcalls generalizing p part with
  | nil => exact ⟨p, part, rfl, hpart, ⟨by simp, SameRanges.refl _⟩, fun _ _ => rfl⟩
  | @cons c a cs calls ha hrest ih =>
    obtain ⟨hc, hsame⟩ := hkeys c List.mem_cons_self
    obtain ⟨ion, hstep, hcontacts, hranges⟩ := @step_deletes atof nodeNbr p part hpart c hc hsame a ha
    have hlater : ∀ e ∈ cs, Shown e ∧ ∀ d ∈ ion.contactIndex, d.toSpan.key = e.toSpan.key → d = e := by
      intro e he
      obtain ⟨hshown, hkey⟩ := hkeys e (List.mem_cons_of_mem _ he)
      exact ⟨hshown, fun d hd => hkey d ((hcontacts d).mp hd).1⟩
    have hafter : (Function.update p.nodes.partitions nodeNbr (some { part with ion := ion })) nodeNbr =
        some { part with ion := ion } := Function.update_self ..
    obtain ⟨p', part', hrun, hpart', hwithout, hothers⟩ := ih
      { p with nodes := { p.nodes with partitions := Function.update p.nodes.partitions nodeNbr (some { part with ion := ion }) } }
      { part with ion := ion } hafter hlater
    refine ⟨p', part', ?_, hpart', ⟨?_, hranges.trans hwithout.ranges⟩, ?_⟩
    · rw [Runs.run_cons, hstep]
      exact hrun
    · intro d
      rw [hwithout.contacts d, hcontacts d, List.mem_singleton, List.mem_cons, not_or]
      exact and_assoc
    · intro other hother
      rw [hothers other hother]
      exact Function.update_of_ne hother ..

/-- Node 1 with a contact in the first hour of the year 2016. -/
def newYear : AdminProcess :=
  ⟨(editNode (initializeNode IonProcess.start 1) 1 0 (.insertContact 1451606400 1451610000 1 2 100 1)).getD IonProcess.start, 0⟩

/-- The contact is deleted twice. -/
theorem shown_contacts_deleted_newYear : ∃ part c, newYear.nodes.partitions 1 = some part ∧ c ∈ part.ion.contactIndex ∧
    writeTimestampUTC c.fromTime = timestampText ⟨⟨2016, 0, 1⟩, 0, 0, 0⟩ ∧
    ∃ p' part', Runs.run (Ionadmin.step (fun _ => 1)) newYear
        [⟨1, 0, .processLine (deleteText c)⟩, ⟨1, 5, .processLine (deleteText c)⟩] = some p' ∧
      p'.nodes.partitions 1 = some part' ∧ Without [c, c] part.ion part'.ion ∧
      ∀ other ≠ 1, p'.nodes.partitions other = newYear.nodes.partitions other := by
  have hsome : (newYear.nodes.partitions 1).any (fun part => part.ion.contactIndex.entries.head?.any (fun c =>
      decide (Shown c ∧ writeTimestampUTC c.fromTime = timestampText ⟨⟨2016, 0, 1⟩, 0, 0, 0⟩))) = true := by
    decide +kernel
  obtain ⟨part, hpart, hsome⟩ := (Option.any_eq_true _ _).mp hsome
  obtain ⟨c, hc, hsome⟩ := (Option.any_eq_true _ _).mp hsome
  obtain ⟨hshown, htext⟩ := of_decide_eq_true hsome
  have hmem : c ∈ part.ion.contactIndex := List.mem_of_head? hc
  have hdeletes : ∀ time, Deletes 1 c ⟨1, time, .processLine (deleteText c)⟩ :=
    fun time => ⟨rfl, deleteText c, rfl, deleteLine_text hshown⟩
  exact ⟨part, c, hpart, hmem, htext, shown_contacts_deleted newYear part hpart [c, c] _
    (.cons (hdeletes 0) (.cons (hdeletes 5) .nil)) (by simp [hmem, hshown])⟩

end Timestamps
