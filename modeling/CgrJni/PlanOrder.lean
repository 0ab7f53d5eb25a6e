import CgrJni.RfxRanges

/-!
Executing a contact plan line by line. Contacts commute; ranges interact across
directions through imputed reverse ranges, and the order of the lines is
irrelevant exactly for the plans that are compatible in the sense below.
-/

namespace PlanOrder

open IonDb Rfx RfxContacts RfxRanges

/-- A line of a contact plan whose arguments pass the checks of its insertion. -/
inductive Assertion
  | contact (span : Span) (xmitRate : Nat) (prob : ℚ) (valid : 0 < prob ∧ prob ≤ 1)
  | range (span : Span) (owlt : Nat)
  deriving DecidableEq

def Assertion.span : Assertion → Span
  | .contact span _ _ _ => span
  | .range span _ => span

def Assertion.isRange : Assertion → Bool
  | .contact .. => false
  | .range .. => true

def assert (s : IonState) (now : Int) : Assertion → IonState × PsmAddress
  | .contact span xmitRate prob _ =>
    rfxInsertContact s now span.fromTime span.toTime span.fromNode span.toNode xmitRate prob
  | .range span owlt =>
    rfxInsertRange s now span.fromTime span.toTime span.fromNode span.toNode owlt

/-- Executes assertions in order, each at its own time, as long as each is accepted. -/
def execute (s : IonState) : List (Int × Assertion) → Option IonState
  | [] => some s
  | (now, a) :: rest => if (assert s now a).2 = 0 then none else execute (assert s now a).1 rest

/-- Contacts of one ordered pair are disjoint, and so are ranges of one ordered pair. -/
structure Consistent (plan : List Assertion) : Prop where
  nodup : plan.Nodup
  disjoint : ∀ a ∈ plan, ∀ b ∈ plan, a ≠ b → a.isRange = b.isRange → a.span.pair = b.span.pair →
    a.span.Disjoint b.span

/-- A canonical range and a range of the reverse direction are disjoint, or they start
together and no range between the two nodes starts later. -/
def Compatible (plan : List Assertion) : Prop :=
  ∀ c o n o', .range c o ∈ plan → .range n o' ∈ plan → c.fromNode < c.toNode →
    n.pair = c.reverse.pair → c.Disjoint n ∨ (c.fromTime = n.fromTime ∧
      ∀ r o'', .range r o'' ∈ plan → r.pair = c.pair ∨ r.pair = n.pair → r.fromTime ≤ c.fromTime)

/-- Index entries without the addresses of their records. -/
def contactContent (c : IonCXref) : IonCXref := { c with contactElt := 0, addr := 0 }

def rangeContent (r : IonRXref) : IonRXref :=
  { r with rangeElt := if r.imputed then 0 else 1, addr := 0 }

def indexes (s : IonState) : List IonCXref × List IonRXref :=
  (s.contactIndex.entries.map contactContent, s.rangeIndex.entries.map rangeContent)

/-- Every order of the lines is accepted, and all orders yield the same indexes. -/
def OrderIrrelevant (s : IonState) (plan : List Assertion) : Prop :=
  ∀ order₁ order₂ : List (Int × Assertion), (order₁.map Prod.snd).Perm plan →
    (order₂.map Prod.snd).Perm plan → ∃ t₁ t₂, execute s order₁ = some t₁ ∧
      execute s order₂ = some t₂ ∧ indexes t₁ = indexes t₂

def assertedContent (span : Span) (owlt : Nat) : IonRXref := ⟨span, owlt, 1, 0⟩

def imputedContent (span : Span) (owlt : Nat) : IonRXref := ⟨span.reverse, owlt, 0, 0⟩

/-- The range entries after the given assertions, in whatever order. -/
def InstalledRange (given : List Assertion) (y : IonRXref) : Prop :=
  (∃ span owlt, .range span owlt ∈ given ∧ y = assertedContent span owlt) ∨
  ∃ span owlt, .range span owlt ∈ given ∧ span.fromNode < span.toNode ∧
    (∀ n o, .range n o ∈ given → n.key ≠ span.reverse.key) ∧ y = imputedContent span owlt

/-- The state after the given assertions, as far as their order does not matter. -/
structure Installed (s₀ : IonState) (given : List Assertion) (s : IonState) : Prop where
  ownNodeNbr : s.ownNodeNbr = s₀.ownNodeNbr
  maxClockError : s.maxClockError = s₀.maxClockError
  contact : ∀ y, (∃ c ∈ s.contactIndex, contactContent c = y) ↔ ∃ span xmitRate prob valid,
    .contact span xmitRate prob valid ∈ given ∧ y = contactContent (contactEntry s₀ span xmitRate 0)
  range : ∀ y, (∃ r ∈ s.rangeIndex, rangeContent r = y) ↔ InstalledRange given y

variable {s₀ s : IonState} {plan given : List Assertion}

theorem assert_contact (s : IonState) (now : Int) (span : Span) (xmitRate : Nat) (prob : ℚ)
    (valid : 0 < prob ∧ prob ≤ 1) :
    assert s now (.contact span xmitRate prob valid) = insertContact s now span xmitRate prob := by
  simp only [assert, rfxInsertContact, Span.check_self, valid, and_self, if_true]

theorem assert_range (s : IonState) (now : Int) (span : Span) (owlt : Nat) :
    assert s now (.range span owlt) = insertRange s now span owlt := by
  simp only [assert, rfxInsertRange, Span.check_self]

/-- Assertions of one kind with the same key are one assertion. -/
theorem Consistent.eq_of_key (hcons : Consistent plan) {a b : Assertion} (ha : a ∈ plan) (hb : b ∈ plan)
    (hkind : a.isRange = b.isRange) (hkey : a.span.key = b.span.key) : a = b := by
  by_contra hne
  obtain ⟨hpair, hstart⟩ := Span.key_eq_iff.mp hkey
  exact (hcons.disjoint a ha b hb hne hkind hpair).start_ne hstart

theorem Installed.contact_of_mem (hI : Installed s₀ given s) {c : IonCXref} (hc : c ∈ s.contactIndex) :
    ∃ xmitRate prob valid, .contact c.toSpan xmitRate prob valid ∈ given := by
  obtain ⟨span, xmitRate, prob, valid, hmem, he⟩ := (hI.contact _).mp ⟨c, hc, rfl⟩
  have hspan : c.toSpan = span := congrArg IonCXref.toSpan he
  exact ⟨xmitRate, prob, valid, hspan ▸ hmem⟩

theorem rangeContent_asserted {r : IonRXref} (h : ¬ r.imputed) :
    rangeContent r = assertedContent r.toSpan r.owlt := by
  simp only [rangeContent, h, if_false, assertedContent]

theorem rangeContent_imputed {r : IonRXref} (h : r.imputed) :
    rangeContent r = imputedContent r.toSpan.reverse r.owlt := by
  simp only [rangeContent, h, if_true, imputedContent, Span.reverse_reverse]

/-- An entry was asserted, or is imputed from an assertion of the reverse direction. -/
theorem Installed.range_of_mem (hI : Installed s₀ given s) {r : IonRXref} (hr : r ∈ s.rangeIndex) :
    (¬ r.imputed ∧ .range r.toSpan r.owlt ∈ given) ∨
    (r.imputed ∧ .range r.toSpan.reverse r.owlt ∈ given ∧ r.toNode < r.fromNode ∧
      ∀ n o, .range n o ∈ given → n.key ≠ r.toSpan.key) := by
  have hin := (hI.range _).mp ⟨r, hr, rfl⟩
  by_cases himp : r.imputed
  · rw [rangeContent_imputed himp] at hin
    rcases hin with ⟨span, owlt, -, he⟩ | ⟨span, owlt, hmem, hlt, hfree, he⟩
    · exact absurd (congrArg IonRXref.rangeElt he) (by simp [assertedContent, imputedContent])
    · have hspan : r.toSpan = span.reverse := congrArg IonRXref.toSpan he
      have howlt : r.owlt = owlt := congrArg IonRXref.owlt he
      have hrev : r.toSpan.reverse = span := by rw [hspan, Span.reverse_reverse]
      refine Or.inr ⟨himp, ?_, ?_, ?_⟩
      · rw [hrev, howlt]
        exact hmem
      · rw [hspan]
        exact hlt
      · rw [hspan]
        exact hfree
  · rw [rangeContent_asserted himp] at hin
    rcases hin with ⟨span, owlt, hmem, he⟩ | ⟨span, owlt, -, -, -, he⟩
    · have hspan : r.toSpan = span := congrArg IonRXref.toSpan he
      have howlt : r.owlt = owlt := congrArg IonRXref.owlt he
      rw [← hspan, ← howlt] at hmem
      exact Or.inl ⟨himp, hmem⟩
    · exact absurd (congrArg IonRXref.rangeElt he) (by simp [assertedContent, imputedContent])

theorem Installed.contacts_apart (hI : Installed s₀ given s) (hcons : Consistent plan)
    (hgiven : ∀ a ∈ given, a ∈ plan) : ContactsApart s.contactIndex := by
  intro c hc d hd hpair hne
  obtain ⟨r, p, v, hcg⟩ := hI.contact_of_mem hc
  obtain ⟨r', p', v', hdg⟩ := hI.contact_of_mem hd
  refine hcons.disjoint _ (hgiven _ hcg) _ (hgiven _ hdg) ?_ rfl hpair
  intro he
  have hspan : c.toSpan = d.toSpan := congrArg Assertion.span he
  exact hne (SortedIndex.key_inj hc hd (congrArg Span.key hspan))

/-- Entries of one pair are apart: whatever is not disjoint has one start, hence one key. -/
theorem Installed.ranges_apart (hI : Installed s₀ given s) (hcons : Consistent plan)
    (hcomp : Compatible plan) (hgiven : ∀ a ∈ given, a ∈ plan) : RangesApart s.rangeIndex := by
  have hcross : ∀ x ∈ s.rangeIndex, ∀ y ∈ s.rangeIndex, x.pair = y.pair → x ≠ y → ¬ x.imputed →
      y.imputed → x.toSpan.Disjoint y.toSpan := by
    intro x hx y hy hpair hne hxi hyi
    rcases hI.range_of_mem hx with ⟨-, hxg⟩ | ⟨hxi', -⟩
    · rcases hI.range_of_mem hy with ⟨hyi', -⟩ | ⟨-, hyg, hlt, -⟩
      · exact absurd hyi hyi'
      · rcases hcomp _ _ _ _ (hgiven _ hyg) (hgiven _ hxg) hlt hpair with hd | ⟨hs, -⟩
        · exact hd.symm
        · exact absurd (SortedIndex.key_inj hx hy (Span.key_eq_iff.mpr ⟨hpair, hs.symm⟩)) hne
    · exact absurd hxi' hxi
  intro x hx y hy hpair hne
  have hkey : x.toSpan ≠ y.toSpan := fun he => hne (SortedIndex.key_inj hx hy (congrArg Span.key he))
  rcases hI.range_of_mem hx with ⟨hxi, hxg⟩ | ⟨hxi, hxg, -⟩ <;>
    rcases hI.range_of_mem hy with ⟨hyi, hyg⟩ | ⟨hyi, hyg, -⟩
  · exact hcons.disjoint _ (hgiven _ hxg) _ (hgiven _ hyg)
      (fun he => hkey (congrArg Assertion.span he)) rfl hpair
  · exact hcross x hx y hy hpair hne hxi hyi
  · exact (hcross y hy x hx hpair.symm hne.symm hyi hxi).symm
  · have hrev : x.toSpan.reverse.pair = y.toSpan.reverse.pair := Span.reverse_pair hpair
    refine hcons.disjoint _ (hgiven _ hxg) _ (hgiven _ hyg) (fun he => hkey ?_) rfl hrev
    have hr : x.toSpan.reverse = y.toSpan.reverse := congrArg Assertion.span he
    rw [← Span.reverse_reverse x.toSpan, hr, Span.reverse_reverse]

theorem Installed.contact_absent (hI : Installed s₀ given s) (hcons : Consistent plan)
    (hgiven : ∀ a ∈ given, a ∈ plan) {span : Span} {xmitRate : Nat} {prob : ℚ}
    {valid : 0 < prob ∧ prob ≤ 1} (ha : .contact span xmitRate prob valid ∈ plan)
    (hnew : .contact span xmitRate prob valid ∉ given) : s.contactIndex.lookup span.key = none := by
  rw [SortedIndex.lookup_eq_none]
  intro c hc hkey
  obtain ⟨r, p, v, hcg⟩ := hI.contact_of_mem hc
  exact hnew (hcons.eq_of_key (hgiven _ hcg) ha rfl hkey ▸ hcg)

theorem Installed.contact_free (hI : Installed s₀ given s) (hcons : Consistent plan)
    (hgiven : ∀ a ∈ given, a ∈ plan) {span : Span} {xmitRate : Nat} {prob : ℚ}
    {valid : 0 < prob ∧ prob ≤ 1} (ha : .contact span xmitRate prob valid ∈ plan)
    (hnew : .contact span xmitRate prob valid ∉ given) :
    overlapsContact s.contactIndex span = false := by
  cases hov : overlapsContact s.contactIndex span with
  | false => rfl
  | true =>
    have habs := hI.contact_absent hcons hgiven ha hnew
    obtain ⟨c, hc, hpair, hnd⟩ := (overlapsContact_iff (hI.contacts_apart hcons hgiven) habs).mp hov
    obtain ⟨r, p, v, hcg⟩ := hI.contact_of_mem hc
    exact absurd (hcons.disjoint _ ha _ (hgiven _ hcg) (fun he => hnew (he ▸ hcg)) rfl hpair.symm) hnd

theorem contactContent_entry (hown : s.ownNodeNbr = s₀.ownNodeNbr)
    (herr : s.maxClockError = s₀.maxClockError) (span : Span) (xmitRate : Nat) (elt : Object) :
    contactContent (contactEntry s span xmitRate elt) = contactContent (contactEntry s₀ span xmitRate 0) := by
  simp only [contactContent, hown, herr]

theorem installedRange_cons_contact (span : Span) (xmitRate : Nat) (prob : ℚ)
    (valid : 0 < prob ∧ prob ≤ 1) (y : IonRXref) :
    InstalledRange (.contact span xmitRate prob valid :: given) y ↔ InstalledRange given y := by
  simp only [InstalledRange, List.mem_cons, reduceCtorEq, false_or]

/-- A contact of a consistent plan is accepted in any order. -/
theorem assert_contact_installed (hI : Installed s₀ given s) (hcons : Consistent plan)
    (hgiven : ∀ a ∈ given, a ∈ plan) (now : Int) {span : Span} {xmitRate : Nat} {prob : ℚ}
    {valid : 0 < prob ∧ prob ≤ 1} (ha : .contact span xmitRate prob valid ∈ plan)
    (hnew : .contact span xmitRate prob valid ∉ given) :
    (assert s now (.contact span xmitRate prob valid)).2 ≠ 0 ∧
    Installed s₀ (.contact span xmitRate prob valid :: given)
      (assert s now (.contact span xmitRate prob valid)).1 := by
  have habs := hI.contact_absent hcons hgiven ha hnew
  have hfree := hI.contact_free hcons hgiven ha hnew
  have hadd : assert s now (.contact span xmitRate prob valid) = addContact s now span xmitRate prob habs := by
    rw [assert_contact]
    rcases insertContact_cases s now span xmitRate prob with ⟨c, hc, -⟩ | ⟨-, hov, -⟩ | ⟨_, -, h⟩
    · rw [habs] at hc
      cases hc
    · rw [hfree] at hov
      cases hov
    · exact h
  have hentry : ∀ y, (∃ c ∈ (addContact s now span xmitRate prob habs).1.contactIndex, contactContent c = y) ↔
      y = contactContent (contactEntry s₀ span xmitRate 0) ∨ ∃ c ∈ s.contactIndex, contactContent c = y := by
    intro y
    rw [← contactContent_entry hI.ownNodeNbr hI.maxClockError span xmitRate (s.lastObject + 1)]
    simp only [addContact, insertCXref, SortedIndex.mem_insert, exists_eq_or_imp, eq_comm (b := y)]
  rw [hadd]
  refine ⟨Nat.succ_ne_zero _, hI.ownNodeNbr, hI.maxClockError, fun y => ?_, fun y => ?_⟩
  · rw [hentry, hI.contact y]
    constructor
    · rintro (rfl | ⟨span', r', p', v', hmem, rfl⟩)
      · exact ⟨span, xmitRate, prob, valid, List.mem_cons_self, rfl⟩
      · exact ⟨span', r', p', v', List.mem_cons_of_mem _ hmem, rfl⟩
    · rintro ⟨span', r', p', v', hmem, rfl⟩
      cases List.mem_cons.mp hmem with
      | inl he =>
        obtain ⟨rfl, rfl, -⟩ := Assertion.contact.inj he
        exact Or.inl rfl
      | inr hmem => exact Or.inr ⟨span', r', p', v', hmem, rfl⟩
  · rw [installedRange_cons_contact]
    exact hI.range y

theorem range_key_ne (hcons : Consistent plan) (hgiven : ∀ a ∈ given, a ∈ plan) {span : Span} {owlt : Nat}
    (ha : .range span owlt ∈ plan) (hnew : .range span owlt ∉ given) {n : Span} {o : Nat}
    (hn : .range n o ∈ given) : n.key ≠ span.key :=
  fun hkey => hnew (hcons.eq_of_key (hgiven _ hn) ha rfl hkey ▸ hn)

/-- One more range assertion: its own entry, its reverse where no assertion holds that
key, and the entries of the others except an imputed one that it overrides. -/
theorem installedRange_cons (hcons : Consistent plan) (hgiven : ∀ a ∈ given, a ∈ plan) {span : Span}
    {owlt : Nat} (ha : .range span owlt ∈ plan) (hnew : .range span owlt ∉ given) (y : IonRXref) :
    InstalledRange (.range span owlt :: given) y ↔ y = assertedContent span owlt ∨
      (span.fromNode < span.toNode ∧ (∀ n o, .range n o ∈ given → n.key ≠ span.reverse.key) ∧
        y = imputedContent span owlt) ∨
      (InstalledRange given y ∧ y.toSpan.key ≠ span.key) := by
  constructor
  · rintro (⟨span', o', hmem, rfl⟩ | ⟨span', o', hmem, hlt, hfree, rfl⟩)
    · cases List.mem_cons.mp hmem with
      | inl he =>
        obtain ⟨rfl, rfl⟩ := Assertion.range.inj he
        exact Or.inl rfl
      | inr hmem =>
        exact Or.inr (Or.inr ⟨Or.inl ⟨span', o', hmem, rfl⟩, range_key_ne hcons hgiven ha hnew hmem⟩)
    · have hfree' : ∀ n o, .range n o ∈ given → n.key ≠ span'.reverse.key :=
        fun n o hn => hfree n o (List.mem_cons_of_mem _ hn)
      cases List.mem_cons.mp hmem with
      | inl he =>
        obtain ⟨rfl, rfl⟩ := Assertion.range.inj he
        exact Or.inr (Or.inl ⟨hlt, hfree', rfl⟩)
      | inr hmem =>
        exact Or.inr (Or.inr ⟨Or.inr ⟨span', o', hmem, hlt, hfree', rfl⟩,
          (hfree span owlt List.mem_cons_self).symm⟩)
  · rintro (rfl | ⟨hlt, hfree, rfl⟩ | ⟨⟨span', o', hmem, rfl⟩ | ⟨span', o', hmem, hlt, hfree, rfl⟩, hne⟩)
    · exact Or.inl ⟨span, owlt, List.mem_cons_self, rfl⟩
    · refine Or.inr ⟨span, owlt, List.mem_cons_self, hlt, fun n o hn => ?_, rfl⟩
      cases List.mem_cons.mp hn with
      | inl he =>
        obtain ⟨rfl, rfl⟩ := Assertion.range.inj he
        exact key_ne_reverse (Nat.ne_of_lt hlt)
      | inr hn => exact hfree n o hn
    · exact Or.inl ⟨span', o', List.mem_cons_of_mem _ hmem, rfl⟩
    · refine Or.inr ⟨span', o', List.mem_cons_of_mem _ hmem, hlt, fun n o hn => ?_, rfl⟩
      cases List.mem_cons.mp hn with
      | inl he =>
        obtain ⟨rfl, rfl⟩ := Assertion.range.inj he
        exact hne.symm
      | inr hn => exact hfree n o hn

theorem Installed.range_off_key (hI : Installed s₀ given s) (k : Key) (y : IonRXref) :
    (∃ r ∈ s.rangeIndex, r.toSpan.key ≠ k ∧ rangeContent r = y) ↔
      InstalledRange given y ∧ y.toSpan.key ≠ k := by
  rw [← hI.range y]
  constructor
  · rintro ⟨r, hr, hk, rfl⟩
    exact ⟨⟨r, hr, rfl⟩, hk⟩
  · rintro ⟨⟨r, hr, rfl⟩, hk⟩
    exact ⟨r, hr, hk, rfl⟩

/-- Whether the reverse of a new canonical assertion is imputed shows in the assertions alone. -/
theorem Installed.imputes_iff (hI : Installed s₀ given s) (hcons : Consistent plan)
    (hgiven : ∀ a ∈ given, a ∈ plan) {span : Span} {owlt : Nat} (ha : .range span owlt ∈ plan)
    (hnew : .range span owlt ∉ given) :
    Imputes s.rangeIndex span ↔ span.fromNode < span.toNode ∧
      ∀ n o, .range n o ∈ given → n.key ≠ span.reverse.key := by
  refine and_congr_right (fun hlt => ?_)
  rw [SortedIndex.lookup_eq_none]
  constructor
  · intro hnone n o hn hkey
    obtain ⟨r, hr, he⟩ := (hI.range (assertedContent n o)).mpr (Or.inl ⟨n, o, hn, rfl⟩)
    have hspan : r.toSpan = n := congrArg IonRXref.toSpan he
    exact hnone r hr ((congrArg Span.key hspan).trans hkey)
  · intro hfree r hr hkey
    rcases hI.range_of_mem hr with ⟨-, hrg⟩ | ⟨-, hrg, -⟩
    · exact hfree _ _ hrg hkey
    · exact range_key_ne hcons hgiven ha hnew hrg (Span.reverse_key hkey)

theorem rangeContent_new (s : IonState) (span : Span) (owlt : Nat) :
    rangeContent (newRange s span owlt) = assertedContent span owlt :=
  rangeContent_asserted (newRange_asserted s span owlt)

theorem rangeContent_newImputed (s : IonState) (span : Span) (owlt : Nat) (addr : PsmAddress) :
    rangeContent (imputedEntry (newRange s span owlt) addr) = imputedContent span owlt :=
  rangeContent_imputed rfl

/-- A range whose key is free is clear of every entry of its pair. -/
theorem Installed.range_free (hI : Installed s₀ given s) (hcons : Consistent plan)
    (hcomp : Compatible plan) (hgiven : ∀ a ∈ given, a ∈ plan) {span : Span} {owlt : Nat}
    (ha : .range span owlt ∈ plan) (hnew : .range span owlt ∉ given)
    (hk : s.rangeIndex.lookup span.key = none) :
    overlapsRange s.rangeIndex span (s.rangeIndex.successor span.key) = false := by
  have hclear : Clear s.rangeIndex span span.pair := by
    intro r hr hpair
    rcases hI.range_of_mem hr with ⟨-, hrg⟩ | ⟨-, hrg, hlt, -⟩
    · exact hcons.disjoint _ ha _ (hgiven _ hrg) (fun he => hnew (he ▸ hrg)) rfl hpair.symm
    · rcases hcomp _ _ _ _ (hgiven _ hrg) ha hlt hpair.symm with hd | ⟨hs, -⟩
      · exact hd.symm
      · exact absurd (Span.key_eq_iff.mpr ⟨hpair, hs⟩) (SortedIndex.lookup_eq_none.mp hk r hr)
  cases hov : overlapsRange s.rangeIndex span (s.rangeIndex.successor span.key) with
  | false => rfl
  | true => exact absurd hclear ((overlapsRange_iff (hI.ranges_apart hcons hcomp hgiven) hk).mp hov)

/-- An override of an imputed range passes the test against the last entry: no entry of the pair starts later. -/
theorem Installed.override_free (hI : Installed s₀ given s) (hcons : Consistent plan)
    (hcomp : Compatible plan) (hgiven : ∀ a ∈ given, a ∈ plan) {span : Span} {owlt : Nat}
    (ha : .range span owlt ∈ plan) (hnew : .range span owlt ∉ given) {r : IonRXref}
    (hr : s.rangeIndex.lookup span.key = some r) (himp : r.imputed) :
    overlapsRange (s.rangeIndex.erase span.key) span none = false := by
  obtain ⟨hmem, hkey⟩ := SortedIndex.lookup_eq_some.mp hr
  obtain ⟨hpair, hstart⟩ := Span.key_eq_iff.mp hkey
  rcases hI.range_of_mem hmem with ⟨hni, -⟩ | ⟨-, hrg, hlt, -⟩
  · exact absurd himp hni
  · have hlate : ∀ x o, .range x o ∈ plan → x.pair = r.toSpan.reverse.pair ∨ x.pair = span.pair →
        x.fromTime ≤ r.fromTime := by
      rcases hcomp _ _ _ _ (hgiven _ hrg) ha hlt hpair.symm with hd | ⟨-, hlate⟩
      · exact absurd hstart hd.start_ne
      · exact hlate
    cases hov : overlapsRange (s.rangeIndex.erase span.key) span none with
    | false => rfl
    | true =>
      obtain ⟨p, hp, hpp, hps⟩ := IntervalIndex.startsInPrev_iff.mp hov
      obtain ⟨hpm, hpne⟩ := SortedIndex.mem_erase.mp (SortedIndex.last_eq_some hp).1
      have hpv := p.interval
      have hne : p.fromTime ≠ r.fromTime := by
        intro he
        exact hpne (Span.key_eq_iff.mpr ⟨hpp, he.trans hstart⟩)
      rcases hI.range_of_mem hpm with ⟨-, hpg⟩ | ⟨-, hpg, -⟩
      · have hle := hlate _ _ (hgiven _ hpg) (Or.inr hpp)
        cases hcons.disjoint _ ha _ (hgiven _ hpg) (fun he => hnew (he ▸ hpg)) rfl hpp.symm with
        | inl hd =>
          have hsv := span.interval
          simp only [Assertion.span] at hd
          omega
        | inr hd =>
          simp only [Assertion.span] at hd
          omega
      · have hrev : p.toSpan.reverse.pair = r.toSpan.reverse.pair := Span.reverse_pair (hpp.trans hpair.symm)
        have hle := hlate _ _ (hgiven _ hpg) (Or.inl hrev)
        have hrv := r.interval
        rcases hcons.disjoint _ (hgiven _ hrg) _ (hgiven _ hpg)
            (fun he => hne (congrArg (fun a => a.span.fromTime) he).symm) rfl hrev.symm with hd | hd
        · simp only [Assertion.span, Span.reverse] at hd hle
          omega
        · simp only [Assertion.span, Span.reverse] at hd hle
          omega

/-- A range of a compatible plan is accepted in any order. -/
theorem assert_range_installed (hI : Installed s₀ given s) (hcons : Consistent plan)
    (hcomp : Compatible plan) (hgiven : ∀ a ∈ given, a ∈ plan) (now : Int) {span : Span} {owlt : Nat}
    (ha : .range span owlt ∈ plan) (hnew : .range span owlt ∉ given) :
    (assert s now (.range span owlt)).2 ≠ 0 ∧
    Installed s₀ (.range span owlt :: given) (assert s now (.range span owlt)).1 := by
  rw [assert_range]
  have hsame := insertRange_sameContacts s now span owlt
  -- the entries that stay are those off the key of the assertion
  have hmem : (insertRange s now span owlt).2 ≠ 0 ∧ ∀ y,
      (∃ r ∈ (insertRange s now span owlt).1.rangeIndex, rangeContent r = y) ↔
        y = assertedContent span owlt ∨ (Imputes s.rangeIndex span ∧ y = imputedContent span owlt) ∨
        ∃ r ∈ s.rangeIndex, r.toSpan.key ≠ span.key ∧ rangeContent r = y := by
    cases hk : s.rangeIndex.lookup span.key with
    | none =>
      rcases insertRange_of_absent s now span owlt hk with ⟨hov, -⟩ | ⟨-, haddr, hx⟩
      · rw [hI.range_free hcons hcomp hgiven ha hnew hk] at hov
        cases hov
      · refine ⟨by rw [haddr]; exact Nat.succ_ne_zero _, fun y => ?_⟩
        simp only [hx, or_and_right, exists_or, exists_eq_left, and_assoc, exists_and_left]
        rw [rangeContent_new, rangeContent_newImputed, eq_comm (b := y), eq_comm (b := y)]
        refine or_congr_right (or_congr_right (exists_congr fun r => and_congr_right fun hr => ?_))
        exact (and_iff_right (SortedIndex.lookup_eq_none.mp hk r hr)).symm
    | some r =>
      obtain ⟨hr, hkey⟩ := SortedIndex.lookup_eq_some.mp hk
      rcases hI.range_of_mem hr with ⟨-, hrg⟩ | ⟨himp, -, hlt, -⟩
      · exact absurd hkey (range_key_ne hcons hgiven ha hnew hrg)
      · have hdir : span.toNode < span.fromNode := by
          obtain ⟨h1, h2⟩ := Span.pair_eq_iff.mp (Span.key_eq_iff.mp hkey).1
          omega
        have hni : ¬ Imputes s.rangeIndex span := fun hi => absurd hi.1 (by omega)
        rcases insertRange_of_imputed s now span owlt hk himp hdir with ⟨hov, -⟩ | ⟨-, haddr, hx⟩
        · rw [hI.override_free hcons hcomp hgiven ha hnew hk himp] at hov
          cases hov
        · refine ⟨by rw [haddr]; exact Nat.succ_ne_zero _, fun y => ?_⟩
          simp only [hx, SortedIndex.mem_erase, or_and_right, exists_or, exists_eq_left, hni, false_and,
            false_or, and_assoc]
          rw [rangeContent_new, eq_comm (b := y)]
  refine ⟨hmem.1, ?_, ?_, fun y => ?_, fun y => ?_⟩
  · rw [hsame.ownNodeNbr, hI.ownNodeNbr]
  · rw [hsame.maxClockError, hI.maxClockError]
  · rw [hsame.contactIndex, hI.contact y]
    simp only [List.mem_cons, reduceCtorEq, false_or]
  · rw [hmem.2 y, installedRange_cons hcons hgiven ha hnew y, hI.range_off_key span.key y,
      hI.imputes_iff hcons hgiven ha hnew, and_assoc]

theorem assert_installed (hI : Installed s₀ given s) (hcons : Consistent plan)
    (hcomp : Compatible plan) (hgiven : ∀ a ∈ given, a ∈ plan) (now : Int) {a : Assertion}
    (ha : a ∈ plan) (hnew : a ∉ given) :
    (assert s now a).2 ≠ 0 ∧ Installed s₀ (a :: given) (assert s now a).1 := by
  cases a with
  | contact span xmitRate prob valid => exact assert_contact_installed hI hcons hgiven now ha hnew
  | range span owlt => exact assert_range_installed hI hcons hcomp hgiven now ha hnew

/-- Any order of the remaining lines is accepted, and installs them all. -/
theorem execute_installed (hcons : Consistent plan) (hcomp : Compatible plan)
    (order : List (Int × Assertion)) (hI : Installed s₀ given s)
    (hperm : (given ++ order.map Prod.snd).Perm plan) :
    ∃ t all, execute s order = some t ∧ Installed s₀ all t ∧ ∀ a, a ∈ all ↔ a ∈ plan := by
  induction order generalizing s given with
  | nil =>
    refine ⟨s, given, rfl, hI, fun a => ?_⟩
    rw [← hperm.mem_iff]
    simp
  | cons line rest ih =>
    obtain ⟨now, a⟩ := line
    have hgiven : ∀ b ∈ given, b ∈ plan := fun b hb => hperm.mem_iff.mp (List.mem_append_left _ hb)
    have ha : a ∈ plan := hperm.mem_iff.mp (by simp)
    have hnodup : (given ++ a :: rest.map Prod.snd).Nodup := hperm.nodup_iff.mpr hcons.nodup
    have hnew : a ∉ given := by
      intro hmem
      exact (List.nodup_append.mp hnodup).2.2 a hmem a List.mem_cons_self rfl
    obtain ⟨hacc, hinst⟩ := assert_installed hI hcons hcomp hgiven now ha hnew
    obtain ⟨t, all, ht, hall⟩ := ih hinst (List.perm_middle.symm.trans hperm)
    refine ⟨t, all, ?_, hall⟩
    rw [execute, if_neg hacc]
    exact ht

theorem installed_empty (hc : s.contactIndex = SortedIndex.empty) (hr : s.rangeIndex = SortedIndex.empty) :
    Installed s [] s where
  ownNodeNbr := rfl
  maxClockError := rfl
  contact y := by simp [hc]
  range y := by simp [hr, InstalledRange]

theorem Installed.indexes_eq {given' : List Assertion} {t : IonState} (h : Installed s₀ given s)
    (h' : Installed s₀ given' t) (hsame : ∀ a, a ∈ given ↔ a ∈ given') : indexes s = indexes t := by
  refine Prod.ext (SortedIndex.map_entries_congr (fun _ => rfl) fun y => ?_)
    (SortedIndex.map_entries_congr (fun _ => rfl) fun y => ?_)
  · rw [h.contact y, h'.contact y]
    simp only [hsame]
  · rw [h.range y, h'.range y]
    simp only [InstalledRange, hsame]

theorem orderIrrelevant_of_compatible (hc : s.contactIndex = SortedIndex.empty)
    (hr : s.rangeIndex = SortedIndex.empty) (hcons : Consistent plan) (hcomp : Compatible plan) :
    OrderIrrelevant s plan := by
  intro order₁ order₂ hp₁ hp₂
  obtain ⟨t₁, all₁, he₁, hi₁, hall₁⟩ := execute_installed hcons hcomp order₁ (installed_empty hc hr) hp₁
  obtain ⟨t₂, all₂, he₂, hi₂, hall₂⟩ := execute_installed hcons hcomp order₂ (installed_empty hc hr) hp₂
  exact ⟨t₁, t₂, he₁, he₂, hi₁.indexes_eq hi₂ (fun a => (hall₁ a).trans (hall₂ a).symm)⟩

/-- After a single canonical assertion the index holds it and its imputed reverse. -/
theorem first_installed (hr : s.rangeIndex = SortedIndex.empty) (now : Int) {c : Span} (o : Nat)
    (hlt : c.fromNode < c.toNode) :
    (∀ r ∈ (insertRange s now c o).1.rangeIndex, r.toSpan = c ∨ r.toSpan = c.reverse) ∧
    (∃ r ∈ (insertRange s now c o).1.rangeIndex, r.toSpan = c.reverse ∧ r.imputed) ∧
    RangesApart (insertRange s now c o).1.rangeIndex := by
  have hapart : RangesApart s.rangeIndex := by
    rw [hr]
    exact IntervalIndex.separated_empty
  have hnone : ∀ k, s.rangeIndex.lookup k = none := by
    intro k
    rw [hr]
    rfl
  rcases insertRange_of_absent s now c o (hnone _) with ⟨hov, -⟩ | ⟨-, -, hx⟩
  · refine absurd ?_ ((overlapsRange_iff hapart (hnone _)).mp hov)
    intro x hx
    rw [hr] at hx
    exact absurd hx (SortedIndex.not_mem_empty x)
  · have himp : Imputes s.rangeIndex c := ⟨hlt, hnone _⟩
    refine ⟨?_, ⟨_, (hx _).mpr (Or.inr (Or.inl ⟨himp, rfl⟩)), rfl, rfl⟩, ?_⟩
    · intro r hmem
      rcases (hx r).mp hmem with rfl | ⟨-, rfl⟩ | h
      · exact Or.inl rfl
      · exact Or.inr rfl
      · rw [hr] at h
        exact absurd h (SortedIndex.not_mem_empty r)
    · have hrev : ImputedReversed s.rangeIndex := by
        rw [hr]
        exact fun x h => absurd h (SortedIndex.not_mem_empty x)
      refine (insertRange_apart_iff hrev hapart now c o).mpr ?_
      simp only [KeepsApart, hnone]
      intro _ _ x hx
      rw [hr] at hx
      exact absurd hx (SortedIndex.not_mem_empty x)

/-- An overlapping range of the reverse direction that starts at another time is refused. -/
theorem reverse_refused (hr : s.rangeIndex = SortedIndex.empty) (now now' : Int) {c n : Span} (o o' : Nat)
    (hlt : c.fromNode < c.toNode) (hpair : n.pair = c.reverse.pair) (hnd : ¬ c.Disjoint n)
    (hstart : c.fromTime ≠ n.fromTime) :
    (insertRange (insertRange s now c o).1 now' n o').2 = 0 := by
  obtain ⟨hall, ⟨r, hmem, hspan, -⟩, hapart⟩ := first_installed hr now o hlt
  have hk : (insertRange s now c o).1.rangeIndex.lookup n.key = none := by
    rw [SortedIndex.lookup_eq_none]
    intro x hx hkey
    have ht := (Span.key_eq_iff.mp hkey).2
    cases hall x hx with
    | inl he =>
      rw [he] at ht
      exact hstart ht
    | inr he =>
      rw [he] at ht
      exact hstart ht
  rcases insertRange_of_absent _ now' n o' hk with ⟨-, h⟩ | ⟨hov, -⟩
  · rw [h]
  · have hclear : ¬ Clear (insertRange s now c o).1.rangeIndex n n.pair := by
      intro hcl
      have hd := hcl r hmem (by rw [hpair, IonRXref.pair, hspan])
      rw [hspan] at hd
      exact hnd hd.symm
    rw [(overlapsRange_iff hapart hk).mpr hclear] at hov
    cases hov

/-- With all entries between two nodes, the last one runs against the canonical direction if any does. -/
theorem last_reversed {idx : RangeIndex} {c : Span} (hlt : c.fromNode < c.toNode)
    (hall : ∀ x ∈ idx, x.pair = c.pair ∨ x.pair = c.reverse.pair) {z : IonRXref} (hz : z ∈ idx)
    (hzp : z.pair = c.reverse.pair) :
    ∃ p, idx.last = some p ∧ p.pair = c.reverse.pair ∧ z.fromTime ≤ p.fromTime := by
  cases hl : idx.last with
  | none => exact absurd hz (SortedIndex.last_eq_none.mp hl z)
  | some p =>
    obtain ⟨hp, hmax⟩ := SortedIndex.last_eq_some hl
    have hcr : c.pair < c.reverse.pair := Prod.Lex.toLex_lt_toLex.mpr (Or.inl hlt)
    refine ⟨p, rfl, ?_⟩
    rcases (IntervalIndex.key_le_iff z p).mp (hmax z hz) with h | ⟨h, hle⟩
    · cases hall p hp with
      | inl hpc =>
        rw [hzp, hpc] at h
        exact absurd (h.trans hcr) (lt_irrefl _)
      | inr hpc =>
        rw [hzp, hpc] at h
        exact absurd h (lt_irrefl _)
    · exact ⟨h.symm.trans hzp, hle⟩

/-- With a later range between the two nodes in place, an override is refused. -/
theorem override_refused (hr : s.rangeIndex = SortedIndex.empty) (now now' now'' : Int) {c n r : Span}
    (o o' o'' : Nat) (hlt : c.fromNode < c.toNode) (hpair : n.pair = c.reverse.pair)
    (hstart : c.fromTime = n.fromTime) (hrp : r.pair = c.pair ∨ r.pair = c.reverse.pair)
    (hlate : c.fromTime < r.fromTime)
    (hacc : (insertRange (insertRange s now c o).1 now' r o').2 ≠ 0) :
    (insertRange (insertRange (insertRange s now c o).1 now' r o').1 now'' n o'').2 = 0 := by
  obtain ⟨hall, ⟨i, hmem, hspan, himp⟩, -⟩ := first_installed hr now o hlt
  generalize (insertRange s now c o).1 = s₁ at *
  have hk : ∀ k : Span, k.fromTime = r.fromTime → s₁.rangeIndex.lookup k.key = none := by
    intro k hkr
    rw [SortedIndex.lookup_eq_none]
    intro x hx hkey
    have ht := (Span.key_eq_iff.mp hkey).2
    rcases hall x hx with he | he <;> rw [he] at ht
    · omega
    · simp only [Span.reverse] at ht
      omega
  rcases insertRange_of_absent s₁ now' r o' (hk r rfl) with ⟨-, h⟩ | ⟨-, -, hx⟩
  · exact absurd (congrArg Prod.snd h) hacc
  · generalize (insertRange s₁ now' r o').1 = s₂ at *
    have hnodes : n.toNode < n.fromNode := by
      obtain ⟨h1, h2⟩ := Span.pair_eq_iff.mp hpair
      simp only [Span.reverse] at h1 h2
      omega
    have hikey : i.key = n.key := by
      rw [hspan]
      exact Span.key_eq_iff.mpr ⟨hpair.symm, hstart⟩
    have hlook : s₂.rangeIndex.lookup n.key = some i :=
      SortedIndex.lookup_eq_some.mpr ⟨(hx i).mpr (Or.inr (Or.inr hmem)), hikey⟩
    have hpairs : ∀ x ∈ s₂.rangeIndex.erase n.key, x.pair = c.pair ∨ x.pair = c.reverse.pair := by
      intro x hxm
      rcases (hx x).mp (SortedIndex.mem_erase.mp hxm).1 with rfl | ⟨hi, rfl⟩ | h
      · exact hrp
      · cases hrp with
        | inl h => exact Or.inr (Span.reverse_pair h)
        | inr h =>
          obtain ⟨h1, h2⟩ := Span.pair_eq_iff.mp h
          have := hi.1
          simp only [Span.reverse] at h1 h2
          omega
      · cases hall x h with
        | inl he => exact Or.inl (by rw [IonRXref.pair, he])
        | inr he => exact Or.inr (by rw [IonRXref.pair, he])
    -- the later range itself, or its imputed reverse, runs in the direction of the override
    obtain ⟨z, hz, hzp, hzt⟩ : ∃ z ∈ s₂.rangeIndex, z.pair = c.reverse.pair ∧ z.fromTime = r.fromTime := by
      cases hrp with
      | inl h =>
        have hcan : r.fromNode < r.toNode := by
          obtain ⟨h1, h2⟩ := Span.pair_eq_iff.mp h
          omega
        exact ⟨_, (hx _).mpr (Or.inr (Or.inl ⟨⟨hcan, hk r.reverse rfl⟩, rfl⟩)), Span.reverse_pair h, rfl⟩
      | inr h => exact ⟨_, (hx _).mpr (Or.inl rfl), h, rfl⟩
    have hze : z ∈ s₂.rangeIndex.erase n.key := by
      refine SortedIndex.mem_erase.mpr ⟨hz, fun hkey => ?_⟩
      have ht := (Span.key_eq_iff.mp hkey).2
      omega
    obtain ⟨p, hlast, hpp, hpt⟩ := last_reversed hlt hpairs hze hzp
    have hov : overlapsRange (s₂.rangeIndex.erase n.key) n none = true := by
      refine IntervalIndex.startsInPrev_iff.mpr ⟨p, hlast, hpp.trans hpair.symm, ?_⟩
      have hpv := p.interval
      omega
    rcases insertRange_of_imputed s₂ now'' n o'' hlook himp hnodes with ⟨-, h⟩ | ⟨hfree, -⟩
    · exact h
    · rw [hov] at hfree
      cases hfree

theorem OrderIrrelevant.not_refused (h : OrderIrrelevant s plan) {lines : List Assertion}
    (hperm : lines.Perm plan) : execute s (lines.map (fun a => (0, a))) ≠ none := by
  have hp : ((lines.map (fun a => ((0 : Int), a))).map Prod.snd).Perm plan := by
    simpa [Function.comp_def] using hperm
  obtain ⟨t, -, ht, -⟩ := h _ _ hp hp
  simp [ht]

theorem compatible_of_orderIrrelevant (hr : s.rangeIndex = SortedIndex.empty)
    (h : OrderIrrelevant s plan) : Compatible plan := by
  intro c o n o' hc hn hlt hpair
  by_contra hbad
  obtain ⟨hnd, hnot⟩ := not_or.mp hbad
  have hcn : Assertion.range c o ≠ .range n o' := by
    intro he
    obtain ⟨rfl, -⟩ := Assertion.range.inj he
    have h1 := (Span.pair_eq_iff.mp hpair).1
    simp only [Span.reverse] at h1
    omega
  have hn' : .range n o' ∈ plan.erase (.range c o) := (List.mem_erase_of_ne hcn.symm).mpr hn
  by_cases hstart : c.fromTime = n.fromTime
  · -- the canonical range, then one that starts later, then the override
    have hlate : ∃ r o'', .range r o'' ∈ plan ∧ (r.pair = c.pair ∨ r.pair = n.pair) ∧
        c.fromTime < r.fromTime := by
      by_contra hno
      refine hnot ⟨hstart, fun r o'' hmem hp => ?_⟩
      by_contra hle
      exact hno ⟨r, o'', hmem, hp, by omega⟩
    obtain ⟨r, o'', hmem, hp, hlater⟩ := hlate
    have hne : ∀ {x : Span} {q : Nat}, x.fromTime ≤ c.fromTime → Assertion.range r o'' ≠ .range x q := by
      intro x q hx he
      obtain ⟨rfl, -⟩ := Assertion.range.inj he
      omega
    have hmem' : .range r o'' ∈ (plan.erase (.range c o)).erase (.range n o') :=
      (List.mem_erase_of_ne (hne hstart.symm.le)).mpr ((List.mem_erase_of_ne (hne le_rfl)).mpr hmem)
    have hperm : (Assertion.range c o :: .range r o'' :: .range n o' ::
        ((plan.erase (.range c o)).erase (.range n o')).erase (.range r o'')).Perm plan := by
      refine List.Perm.trans ?_ (List.perm_cons_erase hc).symm
      refine List.Perm.cons _ ?_
      refine (List.Perm.swap _ _ _).trans ?_
      refine List.Perm.trans ?_ (List.perm_cons_erase hn').symm
      exact (List.perm_cons_erase hmem').symm.cons _
    refine h.not_refused hperm ?_
    simp only [List.map_cons, execute, assert_range]
    split
    · rfl
    · split
      · rfl
      · rename_i hacc
        rw [if_pos]
        exact override_refused hr 0 0 0 o o'' o' hlt hpair hstart
          (hp.imp_right (fun he => he.trans hpair)) hlater hacc
  · have hperm : (Assertion.range c o :: .range n o' ::
        (plan.erase (.range c o)).erase (.range n o')).Perm plan := by
      refine List.Perm.trans ?_ (List.perm_cons_erase hc).symm
      exact ((List.perm_cons_erase hn').symm).cons _
    refine h.not_refused hperm ?_
    simp only [List.map_cons, execute, assert_range]
    split
    · rfl
    · rw [if_pos]
      exact reverse_refused hr 0 0 o o' hlt hpair hnd hstart

/-- For a consistent plan the order of the lines is irrelevant exactly when the plan is compatible. -/
theorem orderIrrelevant_iff_compatible (s : IonState) (hc : s.contactIndex = SortedIndex.empty)
    (hr : s.rangeIndex = SortedIndex.empty) (plan : List Assertion) (hcons : Consistent plan) :
    OrderIrrelevant s plan ↔ Compatible plan :=
  ⟨compatible_of_orderIrrelevant hr, orderIrrelevant_of_compatible hc hr hcons⟩

def rangeLine (fromNode toNode : Nat) (fromTime toTime : Int) (owlt : Nat)
    (h : fromNode ≠ 0 ∧ toNode ≠ 0 ∧ fromTime ≠ 0 ∧ fromTime < toTime) : Assertion :=
  .range ⟨fromNode, toNode, fromTime, toTime, h.1, h.2.1, h.2.2.1, h.2.2.2⟩ owlt

/-- Ranges of both directions that overlap without starting together. -/
def crossedPlan : List Assertion :=
  [rangeLine 1 2 10 20 1 (by decide), rangeLine 2 1 5 15 1 (by decide)]

theorem crossedPlan_consistent : Consistent crossedPlan := ⟨by decide, by decide⟩

theorem orderIrrelevant_iff_compatible_crossedPlan :
    OrderIrrelevant (ionInitialize 1) crossedPlan ↔ Compatible crossedPlan :=
  orderIrrelevant_iff_compatible (ionInitialize 1) rfl rfl crossedPlan crossedPlan_consistent

/-- The canonical range first: the other one is refused because of the imputed reverse. -/
theorem crossedPlan_order_matters :
    Consistent crossedPlan ∧ ¬ OrderIrrelevant (ionInitialize 1) crossedPlan := by
  refine ⟨crossedPlan_consistent, fun h => ?_⟩
  refine h.not_refused (List.Perm.refl _) ?_
  decide

end PlanOrder
