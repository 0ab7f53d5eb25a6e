import CgrJni.RfxRanges

/-!
Reading a contact plan a second time. A command that was refused or was a
duplicate must have no effect again; for contacts this always holds, for ranges
it depends on what the first reading left in the index.
-/

namespace PlanReload

open IonDb Rfx RfxContacts RfxRanges

/-- The `a contact` and `a range` commands, with absolute times. -/
inductive AddCommand
  | contact (fromTime toTime : Int) (fromNode toNode xmitRate : Nat) (prob : ℚ)
  | range (fromTime toTime : Int) (fromNode toNode owlt : Nat)
  deriving DecidableEq

def executeAdd (s : IonState) (now : Int) : AddCommand → IonState
  | .contact fromTime toTime fromNode toNode xmitRate prob =>
    if toTime ≤ fromTime then s
    else (rfxInsertContact s now fromTime toTime fromNode toNode xmitRate prob).1
  | .range fromTime toTime fromNode toNode owlt =>
    if toTime ≤ fromTime then s
    else (rfxInsertRange s now fromTime toTime fromNode toNode owlt).1

/-- One reading of a plan: each command with the time at which it is executed. -/
def readPlan (s : IonState) : List (Int × AddCommand) → IonState
  | [] => s
  | (now, cmd) :: rest => readPlan (executeAdd s now cmd) rest

/-- What is installed, without the addresses of records. -/
structure Plan where
  contactIndex : List IonCXref
  rangeIndex : List IonRXref
  timeline : List (Int × IonEventType)
  contacts : List IonContact
  ranges : List IonRange
  deriving DecidableEq

def planOf (s : IonState) : Plan where
  contactIndex := s.contactIndex.entries.map (fun c => { c with contactElt := 0, addr := 0 })
  rangeIndex := s.rangeIndex.entries.map
    (fun r => { r with rangeElt := if r.imputed then 0 else 1, addr := 0 })
  timeline := s.timeline.map (fun e => (e.time, e.type))
  contacts := s.contacts.map Prod.snd
  ranges := s.ranges.map Prod.snd

/-- A range command is refused again: an asserted range holds its key, or the key
is free and a neighbour overlaps. -/
def Refused (idx : RangeIndex) (span : Span) : Prop :=
  match idx.lookup span.key with
  | some r => ¬ r.imputed
  | none => overlapsRange idx span (idx.successor span.key) = true

instance (idx : RangeIndex) (span : Span) : Decidable (Refused idx span) := by
  unfold Refused
  split <;> infer_instance

def RangeRefused (idx : RangeIndex) : AddCommand → Prop
  | .contact .. => True
  | .range fromTime toTime fromNode toNode _ =>
    ∀ span, Span.check fromTime toTime fromNode toNode = some span → Refused idx span

/-- A contact command is refused again, or is a duplicate. -/
def ContactRefused (idx : ContactIndex) : AddCommand → Prop
  | .contact fromTime toTime fromNode toNode _ prob =>
    ∀ span, Span.check fromTime toTime fromNode toNode = some span → 0 < prob ∧ prob ≤ 1 →
      idx.lookup span.key = none → overlapsContact idx span = true
  | .range .. => True

theorem executeAdd_contact (s : IonState) (now fromTime toTime : Int) (fromNode toNode xmitRate : Nat)
    (prob : ℚ) : executeAdd s now (.contact fromTime toTime fromNode toNode xmitRate prob) =
      (rfxInsertContact s now fromTime toTime fromNode toNode xmitRate prob).1 := by
  rw [executeAdd]
  by_cases hle : toTime ≤ fromTime
  · rw [if_pos hle, rfxInsertContact, Span.check, dif_neg (by omega)]
  · rw [if_neg hle]

theorem executeAdd_range (s : IonState) (now fromTime toTime : Int) (fromNode toNode owlt : Nat) :
    executeAdd s now (.range fromTime toTime fromNode toNode owlt) =
      (rfxInsertRange s now fromTime toTime fromNode toNode owlt).1 := by
  rw [executeAdd]
  by_cases hle : toTime ≤ fromTime
  · rw [if_pos hle, rfxInsertRange, Span.check, dif_neg (by omega)]
  · rw [if_neg hle]

/-- A command that is refused or a duplicate changes nothing at all. -/
theorem executeAdd_of_refused {s : IonState} (now : Int) {cmd : AddCommand}
    (hr : RangeRefused s.rangeIndex cmd) (hc : ContactRefused s.contactIndex cmd) :
    executeAdd s now cmd = s := by
  cases cmd with
  | contact fromTime toTime fromNode toNode xmitRate prob =>
    rw [executeAdd_contact]
    rcases rfxInsertContact_cases s now fromTime toTime fromNode toNode xmitRate prob with
      h | ⟨span, hspan, hp, hp', h⟩ <;> rw [h]
    rcases insertContact_cases s now span xmitRate prob with ⟨c, -, h'⟩ | ⟨-, -, h'⟩ | ⟨hk, hfree, -⟩
    · rw [h']
    · rw [h']
    · rw [hc span hspan ⟨hp, hp'⟩ hk] at hfree
      cases hfree
  | range fromTime toTime fromNode toNode owlt =>
    rw [executeAdd_range]
    rcases rfxInsertRange_cases s now fromTime toTime fromNode toNode owlt with ⟨-, h⟩ | ⟨span, hspan, h⟩ <;>
      rw [h]
    have href := hr span hspan
    unfold Refused at href
    rcases insertRange_cases s now span owlt with ⟨r, -, -, h'⟩ | ⟨r, hk, himp, -⟩ | ⟨hk, h'⟩
    · rw [h']
    · simp only [hk] at href
      exact absurd himp href
    · simp only [hk] at href
      rw [h', addRange_rejected href]

theorem executeAdd_contactIndex (s : IonState) (now : Int) (cmd : AddCommand) :
    (executeAdd s now cmd).contactIndex = s.contactIndex ∨
    ∃ c, ∃ h : s.contactIndex.lookup c.toSpan.key = none, overlapsContact s.contactIndex c.toSpan = false ∧
      (executeAdd s now cmd).contactIndex = s.contactIndex.insert c h := by
  cases cmd with
  | contact fromTime toTime fromNode toNode xmitRate prob =>
    rw [executeAdd_contact]
    rcases rfxInsertContact_cases s now fromTime toTime fromNode toNode xmitRate prob with
      h | ⟨span, -, -, -, h⟩ <;> rw [h]
    · exact Or.inl rfl
    · rcases insertContact_cases s now span xmitRate prob with ⟨c, -, h'⟩ | ⟨-, -, h'⟩ | ⟨hk, hfree, h'⟩ <;>
        rw [h']
      · exact Or.inl rfl
      · exact Or.inl rfl
      · exact Or.inr ⟨contactEntry s span xmitRate (s.lastObject + 1), hk, hfree, rfl⟩
  | range fromTime toTime fromNode toNode owlt =>
    rw [executeAdd_range]
    exact Or.inl (rfxInsertRange_sameContacts s now fromTime toTime fromNode toNode owlt).contactIndex

/-- Once a contact command is refused or a duplicate it remains so: contacts only come in, and none
comes in that would take over from the neighbour it was refused for. -/
theorem contactRefused_executeAdd {s : IonState} (now : Int) (cmd : AddCommand) {other : AddCommand}
    (h : ContactRefused s.contactIndex other) : ContactRefused (executeAdd s now cmd).contactIndex other := by
  rcases executeAdd_contactIndex s now cmd with he | ⟨c, hk, hfree, he⟩
  · rw [he]
    exact h
  · rw [he]
    cases other with
    | range fromTime toTime fromNode toNode owlt => trivial
    | contact fromTime toTime fromNode toNode xmitRate prob =>
      intro span hspan hp habs
      have hne : c.toSpan.key ≠ span.key := by
        intro hkey
        exact SortedIndex.lookup_eq_none.mp habs c (SortedIndex.mem_insert.mpr (Or.inl rfl)) hkey
      have habs' : s.contactIndex.lookup span.key = none := by
        rw [← habs]
        exact (SortedIndex.lookup_insert_of_ne s.contactIndex c hk hne).symm
      have hb := h span hspan hp habs'
      rw [overlapsContact, SortedIndex.successor_of_absent habs'] at hb
      rw [overlapsContact, SortedIndex.successor_of_absent hk] at hfree
      rw [overlapsContact, SortedIndex.successor_of_absent habs]
      exact IntervalIndex.blocked_insert hk (fun _ => hfree) habs' hne hb

/-- A contact command that has just been executed is refused or a duplicate from then on. -/
theorem contactRefused_self (s : IonState) (now : Int) (cmd : AddCommand) :
    ContactRefused (executeAdd s now cmd).contactIndex cmd := by
  cases cmd with
  | range fromTime toTime fromNode toNode owlt => trivial
  | contact fromTime toTime fromNode toNode xmitRate prob =>
    intro span hspan hp habs
    rw [executeAdd_contact, rfxInsertContact_of_check hspan hp] at habs ⊢
    rcases insertContact_cases s now span xmitRate prob with ⟨c, hc, h⟩ | ⟨-, hov, h⟩ | ⟨hk, -, h⟩ <;>
      rw [h] at habs ⊢
    · rw [habs] at hc
      cases hc
    · exact hov
    · have hself := SortedIndex.mem_insert_self s.contactIndex
        (contactEntry s span xmitRate (s.lastObject + 1)) hk
      exact absurd rfl (SortedIndex.lookup_eq_none.mp habs _ hself)

/-- More ranges are on record, or as many with fewer entries in the index. -/
def Progress (s t : IonState) : Prop :=
  s.ranges.length < t.ranges.length ∨ (t.ranges.length = s.ranges.length ∧
    t.rangeIndex.entries.length < s.rangeIndex.entries.length)

theorem Progress.trans {s t u : IonState} (h : Progress s t) (h' : Progress t u) : Progress s u := by
  unfold Progress at *
  omega

theorem Progress.of_same_left {s t u : IonState} (h : SameRanges s t) (h' : Progress t u) :
    Progress s u := by
  unfold Progress at *
  rw [← h.ranges, ← h.rangeIndex]
  exact h'

theorem Progress.of_same_right {s t u : IonState} (h : Progress s t) (h' : SameRanges t u) :
    Progress s u := by
  unfold Progress at *
  rw [h'.ranges, h'.rangeIndex]
  exact h

theorem Progress.not_same_plan {s t : IonState} (h : Progress s t) : planOf t ≠ planOf s := by
  intro he
  have hr := congrArg (fun p => p.ranges.length) he
  have hi := congrArg (fun p => p.rangeIndex.length) he
  simp only [planOf, List.length_map] at hr hi
  unfold Progress at h
  omega

theorem addRange_accepted_progress {s : IonState} {now : Int} {span : Span} {owlt : Nat}
    {nextElt : Option IonRXref} {h : s.rangeIndex.lookup span.key = none}
    (hov : overlapsRange s.rangeIndex span nextElt = false) :
    (addRange s now span owlt nextElt h).1.ranges.length = s.ranges.length + 1 := by
  rw [addRange_accepted hov]
  exact (congrArg List.length (insertRXref_ranges (recordRange s span owlt) now (newRange s span owlt) h)).trans
    List.length_append

/-- A range command that is not refused leaves its trace in the database. -/
theorem insertRange_progress (s : IonState) (now : Int) (span : Span) (owlt : Nat) :
    (insertRange s now span owlt).1 = s ∧ Refused s.rangeIndex span ∨
      Progress s (insertRange s now span owlt).1 := by
  unfold Refused
  rcases insertRange_cases s now span owlt with ⟨r, hk, himp, h⟩ | ⟨r, hk, himp, h⟩ | ⟨hk, h⟩ <;> rw [h]
  · simp only [hk]
    exact Or.inl ⟨trivial, himp⟩
  · right
    obtain ⟨hr, hkey⟩ := SortedIndex.lookup_eq_some.mp hk
    cases hov : overlapsRange (dropImputed s r).rangeIndex span none with
    | true =>
      rw [addRange_rejected hov]
      exact Or.inr ⟨rfl, SortedIndex.length_erase_lt hr⟩
    | false =>
      left
      rw [addRange_accepted_progress hov]
      exact Nat.lt_succ_self _
  · simp only [hk]
    cases hov : overlapsRange s.rangeIndex span (s.rangeIndex.successor span.key) with
    | true =>
      rw [addRange_rejected hov]
      exact Or.inl ⟨rfl, rfl⟩
    | false =>
      right
      left
      rw [addRange_accepted_progress hov]
      exact Nat.lt_succ_self _

theorem executeAdd_progress (s : IonState) (now : Int) (cmd : AddCommand) :
    SameRanges s (executeAdd s now cmd) ∧ RangeRefused s.rangeIndex cmd ∨
      Progress s (executeAdd s now cmd) := by
  cases cmd with
  | contact fromTime toTime fromNode toNode xmitRate prob =>
    rw [executeAdd_contact]
    exact Or.inl ⟨rfxInsertContact_sameRanges s now fromTime toTime fromNode toNode xmitRate prob, trivial⟩
  | range fromTime toTime fromNode toNode owlt =>
    rw [executeAdd_range]
    rcases rfxInsertRange_cases s now fromTime toTime fromNode toNode owlt with ⟨hc, h⟩ | ⟨span, hc, h⟩ <;>
      rw [h]
    · refine Or.inl ⟨SameRanges.refl s, fun span hspan => ?_⟩
      rw [hc] at hspan
      cases hspan
    · rcases insertRange_progress s now span owlt with ⟨he, href⟩ | hp
      · rw [he]
        refine Or.inl ⟨SameRanges.refl s, fun span' hspan => ?_⟩
        rw [hc] at hspan
        exact Option.some.inj hspan ▸ href
      · exact Or.inr hp

/-- A reading either refuses every range again or leaves its trace. -/
theorem readPlan_progress (s : IonState) (pass : List (Int × AddCommand)) :
    SameRanges s (readPlan s pass) ∧ (∀ line ∈ pass, RangeRefused s.rangeIndex line.2) ∨
      Progress s (readPlan s pass) := by
  induction pass generalizing s with
  | nil => exact Or.inl ⟨SameRanges.refl s, by simp⟩
  | cons line rest ih =>
    obtain ⟨now, cmd⟩ := line
    rw [readPlan]
    rcases executeAdd_progress s now cmd with ⟨hsame, href⟩ | hp
    · rcases ih (executeAdd s now cmd) with ⟨hsame', hrest⟩ | hp'
      · refine Or.inl ⟨hsame.trans hsame', fun line hline => ?_⟩
        rcases List.mem_cons.mp hline with rfl | hline
        · exact href
        · rw [← hsame.rangeIndex]
          exact hrest line hline
      · exact Or.inr (hp'.of_same_left hsame)
    · rcases ih (executeAdd s now cmd) with ⟨hsame', -⟩ | hp'
      · exact Or.inr (hp.of_same_right hsame')
      · exact Or.inr (hp.trans hp')

theorem readPlan_of_refused {s : IonState} {pass : List (Int × AddCommand)}
    (hr : ∀ line ∈ pass, RangeRefused s.rangeIndex line.2)
    (hc : ∀ line ∈ pass, ContactRefused s.contactIndex line.2) : readPlan s pass = s := by
  induction pass with
  | nil => rfl
  | cons line rest ih =>
    obtain ⟨now, cmd⟩ := line
    rw [readPlan, executeAdd_of_refused now (hr _ List.mem_cons_self) (hc _ List.mem_cons_self)]
    exact ih (fun l hl => hr l (List.mem_cons_of_mem _ hl)) (fun l hl => hc l (List.mem_cons_of_mem _ hl))

theorem contactRefused_readPlan {s : IonState} (pass : List (Int × AddCommand)) {cmd : AddCommand}
    (h : ContactRefused s.contactIndex cmd) : ContactRefused (readPlan s pass).contactIndex cmd := by
  induction pass generalizing s with
  | nil => exact h
  | cons line rest ih => exact ih (contactRefused_executeAdd line.1 line.2 h)

/-- No contact command of a plan has any effect once the plan has been read. -/
theorem contacts_refused_again (s : IonState) (pass : List (Int × AddCommand)) :
    ∀ line ∈ pass, ContactRefused (readPlan s pass).contactIndex line.2 := by
  induction pass generalizing s with
  | nil => simp
  | cons line rest ih =>
    intro l hl
    rcases List.mem_cons.mp hl with rfl | hl
    · exact contactRefused_readPlan rest (contactRefused_self s l.1 l.2)
    · exact ih (executeAdd s line.1 line.2) l hl

/-- Two readings of one plan execute the same commands. -/
theorem forall_line_iff {pass₁ pass₂ : List (Int × AddCommand)}
    (hsame : pass₂.map Prod.snd = pass₁.map Prod.snd) (P : AddCommand → Prop) :
    (∀ line ∈ pass₂, P line.2) ↔ ∀ line ∈ pass₁, P line.2 := by
  have h₂ : (∀ cmd ∈ pass₂.map Prod.snd, P cmd) ↔ ∀ line ∈ pass₂, P line.2 := List.forall_mem_map
  have h₁ : (∀ cmd ∈ pass₁.map Prod.snd, P cmd) ↔ ∀ line ∈ pass₁, P line.2 := List.forall_mem_map
  rw [← h₂, hsame, h₁]

/-- Reading a plan again changes nothing exactly when every range command is refused
again by the range index to which the first reading has led. -/
theorem reload_idempotent_iff (s : IonState) (pass₁ pass₂ : List (Int × AddCommand))
    (hsame : pass₂.map Prod.snd = pass₁.map Prod.snd) :
    planOf (readPlan (readPlan s pass₁) pass₂) = planOf (readPlan s pass₁) ↔
      ∀ line ∈ pass₁, RangeRefused (readPlan s pass₁).rangeIndex line.2 := by
  have hcmd := forall_line_iff hsame
  constructor
  · intro h
    rcases readPlan_progress (readPlan s pass₁) pass₂ with ⟨-, href⟩ | hp
    · exact (hcmd _).mp href
    · exact absurd h hp.not_same_plan
  · intro h
    rw [readPlan_of_refused ((hcmd _).mpr h) ((hcmd _).mpr (contacts_refused_again s pass₁))]

/-- A refusal outlasts an insertion, unless that is imputed or unchecked and for the same two nodes. -/
theorem refused_insert {idx : RangeIndex} {x : IonRXref} (h : idx.lookup x.toSpan.key = none) {other : Span}
    (hx : x.pair = other.pair → ¬ x.imputed ∧ overlapsRange idx x.toSpan (idx.successor x.toSpan.key) = false)
    (href : Refused idx other) : Refused (idx.insert x h) other := by
  unfold Refused at *
  by_cases hkey : x.toSpan.key = other.key
  · rw [← hkey, SortedIndex.lookup_insert_self idx x h]
    exact (hx (Span.key_eq_iff.mp hkey).1).1
  · have hlook := SortedIndex.lookup_insert_of_ne idx x h hkey
    rw [hlook]
    cases hk : idx.lookup other.key with
    | some r =>
      simp only [hk] at href
      exact href
    | none =>
      simp only [hk] at href
      rw [overlapsRange, SortedIndex.successor_of_absent hk] at href
      simp only [overlapsRange, SortedIndex.successor_of_absent (hlook.trans hk)]
      refine IntervalIndex.blocked_insert h (fun hp => ?_) hk hkey href
      have hfree := (hx hp).2
      rw [overlapsRange, SortedIndex.successor_of_absent h] at hfree
      exact hfree

/-- Neither direction of a canonical insertion undoes the refusal of a canonical range. -/
theorem refused_insertRange {s : IonState} (hrev : ImputedReversed s.rangeIndex) (now : Int) {span : Span}
    (owlt : Nat) (hcan : span.fromNode ≤ span.toNode) {other : Span} (hcan' : other.fromNode ≤ other.toNode)
    (href : Refused s.rangeIndex other) :
    Refused (insertRange s now span owlt).1.rangeIndex other := by
  rcases insertRange_cases s now span owlt with ⟨r, -, -, h⟩ | ⟨r, hk, himp, -⟩ | ⟨hk, h⟩
  · rw [h]
    exact href
  · obtain ⟨hr, hkey⟩ := SortedIndex.lookup_eq_some.mp hk
    have hlt := hrev r hr himp
    obtain ⟨h1, h2⟩ := Span.pair_eq_iff.mp (Span.key_eq_iff.mp hkey).1
    omega
  · rw [h]
    cases hov : overlapsRange s.rangeIndex span (s.rangeIndex.successor span.key) with
    | true =>
      rw [addRange_rejected hov]
      exact href
    | false =>
      rw [addRange_accepted hov]
      have hassert : Refused (assertRange (recordRange s span owlt) now (newRange s span owlt) hk).rangeIndex
          other := refused_insert hk (fun _ => ⟨newRange_asserted s span owlt, hov⟩) href
      rcases insertRXref_cases (recordRange s span owlt) now (newRange s span owlt) hk with
        ⟨-, he⟩ | ⟨hi, h', he⟩ <;> rw [he]
      · exact hassert
      · refine refused_insert h' (fun hp => ?_) hassert
        have hpair : span.reverse.pair = other.pair := hp
        have hlt : span.fromNode < span.toNode := hi.1
        obtain ⟨h1, h2⟩ := Span.pair_eq_iff.mp hpair
        simp only [Span.reverse] at h1 h2
        omega

theorem refused_self {s : IonState} (hrev : ImputedReversed s.rangeIndex) (now : Int) {span : Span}
    (owlt : Nat) (hcan : span.fromNode ≤ span.toNode) :
    Refused (insertRange s now span owlt).1.rangeIndex span := by
  rcases insertRange_progress s now span owlt with ⟨he, href⟩ | -
  · rw [he]
    exact href
  · unfold Refused
    cases hk : s.rangeIndex.lookup span.key with
    | some r =>
      obtain ⟨hr, hkey⟩ := SortedIndex.lookup_eq_some.mp hk
      have hni : ¬ r.imputed := by
        intro himp
        have hlt := hrev r hr himp
        obtain ⟨h1, h2⟩ := Span.pair_eq_iff.mp (Span.key_eq_iff.mp hkey).1
        omega
      rcases insertRange_cases s now span owlt with ⟨r', -, -, h⟩ | ⟨r', hk', himp, -⟩ | ⟨hk', -⟩
      · simp only [h, hk]
        exact hni
      · exact absurd (Option.some.inj (hk.symm.trans hk') ▸ himp) hni
      · rw [hk] at hk'
        cases hk'
    | none =>
      rcases insertRange_of_absent s now span owlt hk with ⟨hov, h⟩ | ⟨-, -, hx⟩
      · simp only [h, hk]
        exact hov
      · have hlook : (insertRange s now span owlt).1.rangeIndex.lookup span.key =
            some (newRange s span owlt) :=
          SortedIndex.lookup_eq_some.mpr ⟨(hx _).mpr (Or.inl rfl), rfl⟩
        simp only [hlook]
        exact newRange_asserted s span owlt

def Canonical : AddCommand → Prop
  | .contact .. => True
  | .range _ _ fromNode toNode _ => fromNode ≤ toNode

theorem executeAdd_reversed {s : IonState} (hrev : ImputedReversed s.rangeIndex) (now : Int)
    (cmd : AddCommand) : ImputedReversed (executeAdd s now cmd).rangeIndex := by
  cases cmd with
  | contact fromTime toTime fromNode toNode xmitRate prob =>
    rw [executeAdd_contact, (rfxInsertContact_sameRanges s now fromTime toTime fromNode toNode xmitRate
      prob).rangeIndex]
    exact hrev
  | range fromTime toTime fromNode toNode owlt =>
    rw [executeAdd_range]
    rcases rfxInsertRange_cases s now fromTime toTime fromNode toNode owlt with ⟨-, h⟩ | ⟨span, -, h⟩ <;> rw [h]
    · exact hrev
    · exact insertRange_reversed hrev now span owlt

theorem rangeRefused_executeAdd {s : IonState} (hrev : ImputedReversed s.rangeIndex) (now : Int)
    {cmd other : AddCommand} (hcan : Canonical cmd) (hcan' : Canonical other)
    (href : RangeRefused s.rangeIndex other) : RangeRefused (executeAdd s now cmd).rangeIndex other := by
  cases cmd with
  | contact fromTime toTime fromNode toNode xmitRate prob =>
    rw [executeAdd_contact, (rfxInsertContact_sameRanges s now fromTime toTime fromNode toNode xmitRate
      prob).rangeIndex]
    exact href
  | range fromTime toTime fromNode toNode owlt =>
    rw [executeAdd_range]
    rcases rfxInsertRange_cases s now fromTime toTime fromNode toNode owlt with ⟨-, h⟩ | ⟨span, hspan, h⟩ <;>
      rw [h]
    · exact href
    · obtain ⟨-, -, hf, ht⟩ := Span.check_eq_some hspan
      cases other with
      | contact _ _ _ _ _ _ => trivial
      | range fromTime' toTime' fromNode' toNode' owlt' =>
        intro span' hspan'
        obtain ⟨-, -, hf', ht'⟩ := Span.check_eq_some hspan'
        exact refused_insertRange hrev now owlt (hf ▸ ht ▸ hcan) (hf' ▸ ht' ▸ hcan') (href span' hspan')

theorem rangeRefused_self {s : IonState} (hrev : ImputedReversed s.rangeIndex) (now : Int)
    {cmd : AddCommand} (hcan : Canonical cmd) : RangeRefused (executeAdd s now cmd).rangeIndex cmd := by
  cases cmd with
  | contact fromTime toTime fromNode toNode xmitRate prob => trivial
  | range fromTime toTime fromNode toNode owlt =>
    intro span hspan
    obtain ⟨-, -, hf, ht⟩ := Span.check_eq_some hspan
    rw [executeAdd_range, rfxInsertRange_of_check hspan]
    exact refused_self hrev now owlt (hf ▸ ht ▸ hcan)

theorem ranges_refused_again {s : IonState} (hrev : ImputedReversed s.rangeIndex)
    (pass : List (Int × AddCommand)) (hcan : ∀ line ∈ pass, Canonical line.2) :
    (∀ cmd, Canonical cmd → RangeRefused s.rangeIndex cmd → RangeRefused (readPlan s pass).rangeIndex cmd) ∧
    ∀ line ∈ pass, RangeRefused (readPlan s pass).rangeIndex line.2 := by
  induction pass generalizing s with
  | nil => simp [readPlan]
  | cons line rest ih =>
    have hline := hcan line List.mem_cons_self
    obtain ⟨hkeep, hall⟩ := ih (executeAdd_reversed hrev line.1 line.2)
      (fun l hl => hcan l (List.mem_cons_of_mem _ hl))
    refine ⟨fun cmd hc href => hkeep cmd hc (rangeRefused_executeAdd hrev line.1 hline hc href), ?_⟩
    intro l hl
    rcases List.mem_cons.mp hl with rfl | hl
    · exact hkeep l.2 hline (rangeRefused_self hrev l.1 hline)
    · exact hall l hl

/-- A plan whose ranges are all canonical can be read any number of times. -/
theorem reload_canonical {s : IonState} (hrev : ImputedReversed s.rangeIndex)
    {pass₁ pass₂ : List (Int × AddCommand)} (hsame : pass₂.map Prod.snd = pass₁.map Prod.snd)
    (hcan : ∀ line ∈ pass₁, Canonical line.2) :
    planOf (readPlan (readPlan s pass₁) pass₂) = planOf (readPlan s pass₁) := by
  have hr := (forall_line_iff hsame _).mpr (ranges_refused_again hrev pass₁ hcan).2
  have hc := (forall_line_iff hsame _).mpr (contacts_refused_again s pass₁)
  rw [readPlan_of_refused hr hc]

/-- The override is refused after it has deleted the imputed range, and accepted the next time. -/
def overridePlan : List (Int × AddCommand) :=
  [(0, .range 10 20 1 2 1), (0, .range 30 40 1 2 1), (0, .range 10 20 2 1 5)]

theorem reload_idempotent_iff_overridePlan :
    planOf (readPlan (readPlan (ionInitialize 1) overridePlan) overridePlan) =
        planOf (readPlan (ionInitialize 1) overridePlan) ↔
      ∀ line ∈ overridePlan, RangeRefused (readPlan (ionInitialize 1) overridePlan).rangeIndex line.2 :=
  reload_idempotent_iff (ionInitialize 1) overridePlan overridePlan rfl

theorem overridePlan_not_idempotent :
    planOf (readPlan (readPlan (ionInitialize 1) overridePlan) overridePlan) ≠
      planOf (readPlan (ionInitialize 1) overridePlan) := by
  decide

end PlanReload
