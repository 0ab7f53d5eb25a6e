import CgrJni.Libcgr
import CgrJni.RfxRanges

/-!
The one-way light time that a contact is given. The scan of the range index
passes over ranges that ended before the contact starts, so it also meets a
range that ends at that very second; and it never meets a range that starts
before the epoch.
-/

namespace ApplicableRange

open IonDb IntervalIndex Libcgr RfxRanges

/-- The range is in force when the contact starts: from its start to just before its end. -/
def InForce (r : IonRXref) (c : IonCXref) : Prop :=
  r.pair = c.pair ∧ r.fromTime ≤ c.fromTime ∧ c.fromTime < r.toTime

instance (r : IonRXref) (c : IonCXref) : Decidable (InForce r c) := inferInstanceAs (Decidable (_ ∧ _))

/-- A range is found if and only if one is in force, and it is that one's light time. -/
def FindsInForce (s : IonState) (c : IonCXref) : Prop :=
  ∀ owlt, getApplicableRange s c = some owlt ↔ ∃ r ∈ s.rangeIndex, InForce r c ∧ r.owlt = owlt

/-- What the scan stops at: the first range of the nodes that ends at the start of the contact or later. -/
def FirstOpen (l : List IonRXref) (c : IonCXref) (r : IonRXref) : Prop :=
  r ∈ l ∧ r.pair = c.pair ∧ r.fromTime ≤ c.fromTime ∧ c.fromTime ≤ r.toTime ∧
    ∀ x ∈ l, x.pair = c.pair → x.fromTime < r.fromTime → x.toTime < c.fromTime

section

variable {c : IonCXref} {y r : IonRXref} {rest : List IonRXref}

/-- A range that has ended is passed over. -/
theorem firstOpen_cons_ended (h : y.toTime < c.fromTime) : FirstOpen (y :: rest) c r ↔ FirstOpen rest c r := by
  constructor
  · rintro ⟨hr, hp, hfrom, hto, hfirst⟩
    have hne : r ≠ y := by
      rintro rfl
      omega
    exact ⟨List.mem_of_ne_of_mem hne hr, hp, hfrom, hto, fun x hx => hfirst x (List.mem_cons_of_mem y hx)⟩
  · rintro ⟨hr, hp, hfrom, hto, hfirst⟩
    refine ⟨List.mem_cons_of_mem y hr, hp, hfrom, hto, ?_⟩
    intro x hx hxp hlt
    cases List.mem_cons.mp hx with
    | inl he => exact he ▸ h
    | inr hx => exact hfirst x hx hxp hlt

/-- The scan stops at an open range, as those that follow start later. -/
theorem firstOpen_cons_open (hlater : ∀ x ∈ rest, x.pair = y.pair → y.fromTime < x.fromTime)
    (hpair : y.pair = c.pair) (hfrom : y.fromTime ≤ c.fromTime) (hto : c.fromTime ≤ y.toTime) :
    FirstOpen (y :: rest) c r ↔ r = y := by
  constructor
  · rintro ⟨hr, hp, -, -, hfirst⟩
    cases List.mem_cons.mp hr with
    | inl he => exact he
    | inr hr =>
      have hended := hfirst y List.mem_cons_self hpair (hlater r hr (hp.trans hpair.symm))
      omega
  · rintro rfl
    refine ⟨List.mem_cons_self, hpair, hfrom, hto, ?_⟩
    intro x hx hxp hlt
    cases List.mem_cons.mp hx with
    | inl he =>
      subst he
      omega
    | inr hx =>
      have := hlater x hx (hxp.trans hpair.symm)
      omega

/-- Nothing is found where every range of the nodes starts after the contact. -/
theorem not_firstOpen {l : List IonRXref} (h : ∀ x ∈ l, x.pair = c.pair → c.fromTime < x.fromTime) :
    ¬ FirstOpen l c r := by
  rintro ⟨hr, hp, hfrom, -⟩
  have := h r hr hp
  omega

end

theorem applicableRange_eq_some {c : IonCXref} {owlt : Nat} {l : List IonRXref}
    (hs : l.Pairwise (fun x y => x.toSpan.key < y.toSpan.key))
    (hafter : ∀ r ∈ l, wildKey c.fromNode c.toNode < r.toSpan.key) :
    applicableRange c l = some owlt ↔ ∃ r, FirstOpen l c r ∧ r.owlt = owlt := by
  induction l with
  | nil =>
    constructor
    · intro h
      cases h
    · rintro ⟨r, ⟨hr, -⟩, -⟩
      cases hr
  | cons y rest ih =>
    rw [List.pairwise_cons] at hs
    have hy := wildKey_lt_key.mp (hafter y List.mem_cons_self)
    have ih' := ih hs.2 (fun r hr => hafter r (List.mem_cons_of_mem y hr))
    have hlater : ∀ x ∈ rest, x.pair = y.pair → y.fromTime < x.fromTime := fun x hx hp =>
      lt_lo_of_lt_key (hs.1 x hx) hp
    have hnone : (∀ x ∈ y :: rest, x.pair = c.pair → c.fromTime < x.fromTime) →
        (none = some owlt ↔ ∃ r, FirstOpen (y :: rest) c r ∧ r.owlt = owlt) := fun h =>
      iff_of_false (Option.some_ne_none owlt).symm (fun ⟨r, hr, _⟩ => not_firstOpen h hr)
    rw [applicableRange]
    by_cases hpast : c.fromNode < y.fromNode ∨ c.toNode < y.toNode
    · -- beyond the two nodes, and so is everything that follows
      have hlt : c.pair < y.pair := by
        refine Prod.Lex.toLex_lt_toLex.mpr ?_
        dsimp only
        omega
      rw [if_pos hpast]
      refine hnone (fun x hx hp => ?_)
      have hle : y.toSpan.key ≤ x.toSpan.key := by
        cases List.mem_cons.mp hx with
        | inl he => exact he ▸ le_rfl
        | inr hx => exact le_of_lt (hs.1 x hx)
      have hpairs : y.pair ≤ x.pair := Prod.Lex.monotone_fst _ _ hle
      exact absurd (hp ▸ hpairs) (not_le.mpr hlt)
    have hpair : y.pair = c.pair := Span.pair_eq_iff.mpr ⟨by omega, by omega⟩
    rw [if_neg hpast]
    by_cases hended : y.toTime < c.fromTime
    · rw [if_pos hended, ih']
      simp only [firstOpen_cons_ended hended]
    rw [if_neg hended]
    by_cases hopen : c.fromTime < y.fromTime
    · -- not open yet, nor is any later range of the nodes
      rw [if_pos hopen]
      refine hnone (fun x hx hp => ?_)
      cases List.mem_cons.mp hx with
      | inl he => exact he ▸ hopen
      | inr hx => exact hopen.trans (hlater x hx (hp.trans hpair.symm))
    · rw [if_neg hopen]
      simp only [firstOpen_cons_open hlater hpair (not_lt.mp hopen) (not_lt.mp hended), exists_eq_left,
        Option.some.injEq]

/-- The ranges that the scan of two nodes meets: those that start after the epoch. -/
theorem mem_above_wildKey {idx : RangeIndex} {fromNode toNode : Nat} {r : IonRXref}
    (hp : r.pair = toLex (fromNode, toNode)) :
    r ∈ idx.above (wildKey fromNode toNode) ↔ r ∈ idx ∧ 0 < r.fromTime := by
  have hnodes := EmbeddingLike.apply_eq_iff_eq toLex |>.mp hp
  rw [SortedIndex.mem_above, key_range, wildKey_lt_key]
  have h1 : r.fromNode = fromNode := congrArg Prod.fst hnodes
  have h2 : r.toNode = toNode := congrArg Prod.snd hnodes
  refine and_congr_right (fun _ => ?_)
  omega

/-- The first range of the nodes, of those that start after the epoch, that the contact's start is not past. -/
theorem getApplicableRange_eq_some {s : IonState} {c : IonCXref} {owlt : Nat} :
    getApplicableRange s c = some owlt ↔ ∃ r ∈ s.rangeIndex, r.pair = c.pair ∧ 0 < r.fromTime ∧
      r.fromTime ≤ c.fromTime ∧ c.fromTime ≤ r.toTime ∧ r.owlt = owlt ∧
      ∀ x ∈ s.rangeIndex, x.pair = c.pair → 0 < x.fromTime → x.fromTime < r.fromTime → x.toTime < c.fromTime := by
  have hafter : ∀ r ∈ s.rangeIndex.above (wildKey c.fromNode c.toNode), wildKey c.fromNode c.toNode < r.toSpan.key :=
    fun r hr => (SortedIndex.mem_above.mp hr).2
  have hsorted : (s.rangeIndex.above (wildKey c.fromNode c.toNode)).Pairwise
      (fun x y => x.toSpan.key < y.toSpan.key) := s.rangeIndex.above_sorted _
  have hmem : ∀ r : IonRXref, r.pair = c.pair →
      (r ∈ s.rangeIndex.above (wildKey c.fromNode c.toNode) ↔ r ∈ s.rangeIndex ∧ 0 < r.fromTime) :=
    fun r hp => mem_above_wildKey hp
  rw [getApplicableRange_above, applicableRange_eq_some hsorted hafter]
  constructor
  · rintro ⟨r, ⟨hr, hp, hfrom, hto, hfirst⟩, ho⟩
    have hr' := (hmem r hp).mp hr
    exact ⟨r, hr'.1, hp, hr'.2, hfrom, hto, ho, fun x hx hxp hpos => hfirst x ((hmem x hxp).mpr ⟨hx, hpos⟩) hxp⟩
  · rintro ⟨r, hr, hp, hpos, hfrom, hto, ho, hfirst⟩
    exact ⟨r, ⟨(hmem r hp).mpr ⟨hr, hpos⟩, hp, hfrom, hto,
      fun x hx hxp => hfirst x ((hmem x hxp).mp hx).1 hxp ((hmem x hxp).mp hx).2⟩, ho⟩

/-- No range of the nodes that starts before the epoch is in force, and where a later one ends just
when the contact starts, another one with the same light time starts then. -/
def Handover (idx : RangeIndex) (c : IonCXref) : Prop :=
  (∀ r ∈ idx, InForce r c → 0 < r.fromTime) ∧
    ∀ r ∈ idx, r.pair = c.pair → 0 < r.fromTime → r.toTime = c.fromTime →
      ∃ n ∈ idx, n.pair = c.pair ∧ n.fromTime = c.fromTime ∧ n.owlt = r.owlt

instance (idx : RangeIndex) (c : IonCXref) : Decidable (Handover idx c) :=
  inferInstanceAs (Decidable ((∀ r ∈ idx.entries, _) ∧ ∀ r ∈ idx.entries, _ → _ → _ → ∃ n ∈ idx.entries, _))

theorem apart_of_ne {idx : RangeIndex} (hidx : RangesApart idx) {x y : IonRXref} (hx : x ∈ idx) (hy : y ∈ idx)
    (hp : x.pair = y.pair) (hne : x ≠ y) : x.toTime ≤ y.fromTime ∨ y.toTime ≤ x.fromTime := hidx x hx y hy hp hne

theorem inForce_unique {idx : RangeIndex} (hidx : RangesApart idx) {c : IonCXref} {r n : IonRXref} (hr : r ∈ idx)
    (hn : n ∈ idx) (hrf : InForce r c) (hnf : InForce n c) : r = n := by
  obtain ⟨hrp, hrfrom, hrto⟩ := hrf
  obtain ⟨hnp, hnfrom, hnto⟩ := hnf
  by_contra hne
  cases apart_of_ne hidx hr hn (hrp.trans hnp.symm) hne with
  | inl h => omega
  | inr h => omega

/-- Of two ranges of the nodes that are apart, the one that starts earlier is over before the other starts. -/
theorem ended_of_starts_earlier {idx : RangeIndex} (hidx : RangesApart idx) {x r : IonRXref} (hx : x ∈ idx)
    (hr : r ∈ idx) (hp : x.pair = r.pair) (hlt : x.fromTime < r.fromTime) : x.toTime ≤ r.fromTime := by
  have hne : x ≠ r := by
    rintro rfl
    exact lt_irrefl _ hlt
  have hr' := r.interval
  cases apart_of_ne hidx hx hr hp hne with
  | inl h => exact h
  | inr h => omega

theorem findsInForce_iff (s : IonState) (c : IonCXref) (hidx : RangesApart s.rangeIndex) :
    FindsInForce s c ↔ Handover s.rangeIndex c := by
  constructor
  · intro hfinds
    refine ⟨?_, ?_⟩
    · -- what is found starts after the epoch
      intro r hr hrf
      obtain ⟨n, hn, hnp, hpos, hnfrom, hnto, -, -⟩ :=
        getApplicableRange_eq_some.mp ((hfinds r.owlt).mpr ⟨r, hr, hrf, rfl⟩)
      obtain ⟨hrp, hrfrom, hrto⟩ := hrf
      by_contra hneg
      have := ended_of_starts_earlier hidx hr hn (hrp.trans hnp.symm) (by omega)
      omega
    · intro r hr hp hpos hend
      have hr' := r.interval
      have hfound : getApplicableRange s c = some r.owlt := by
        refine getApplicableRange_eq_some.mpr ⟨r, hr, hp, hpos, by omega, by omega, rfl, ?_⟩
        intro x hx hxp _ hlt
        have := ended_of_starts_earlier hidx hx hr (hxp.trans hp.symm) hlt
        omega
      obtain ⟨n, hn, ⟨hnp, hnfrom, hnto⟩, ho⟩ := (hfinds r.owlt).mp hfound
      refine ⟨n, hn, hnp, ?_, ho⟩
      have hne : r ≠ n := by
        rintro rfl
        omega
      cases apart_of_ne hidx hr hn (hp.trans hnp.symm) hne with
      | inl h => omega
      | inr h => omega
  · rintro ⟨hpositive, hhand⟩ owlt
    constructor
    · intro h
      obtain ⟨r, hr, hp, hpos, hfrom, hto, ho, -⟩ := getApplicableRange_eq_some.mp h
      cases lt_or_eq_of_le hto with
      | inl hlt => exact ⟨r, hr, ⟨hp, hfrom, hlt⟩, ho⟩
      | inr hend =>
        obtain ⟨n, hn, hnp, hnfrom, hno⟩ := hhand r hr hp hpos hend.symm
        have hn' := n.interval
        exact ⟨n, hn, ⟨hnp, by omega, by omega⟩, hno.trans ho⟩
    · rintro ⟨r, hr, hrf, ho⟩
      have hpos := hpositive r hr hrf
      have hrf' := hrf
      obtain ⟨hp, hfrom, hto⟩ := hrf'
      by_cases hends : ∃ x ∈ s.rangeIndex, x.pair = c.pair ∧ 0 < x.fromTime ∧ x.toTime = c.fromTime
      · -- the scan stops at the range that ends, and the next one has the same light time
        obtain ⟨x, hx, hxp, hxpos, hxend⟩ := hends
        have hx' := x.interval
        obtain ⟨n, hn, hnp, hnfrom, hno⟩ := hhand x hx hxp hxpos hxend
        have hn' := n.interval
        have hnr : n = r := inForce_unique hidx hn hr ⟨hnp, by omega, by omega⟩ hrf
        refine getApplicableRange_eq_some.mpr ⟨x, hx, hxp, hxpos, by omega, by omega, ?_, ?_⟩
        · rw [← hno, hnr, ho]
        · intro y hy hyp _ hlt
          have := ended_of_starts_earlier hidx hy hx (hyp.trans hxp.symm) hlt
          omega
      · refine getApplicableRange_eq_some.mpr ⟨r, hr, hp, hpos, hfrom, by omega, ho, ?_⟩
        intro y hy hyp hypos hlt
        have hle := ended_of_starts_earlier hidx hy hr (hyp.trans hp.symm) hlt
        have hne : y.toTime ≠ c.fromTime := fun he => hends ⟨y, hy, hyp, hypos, he⟩
        omega

/-- Two ranges that touch at the start of the contact. -/
def touching : IonState where
  __ := ionInitialize 1
  rangeIndex := ⟨[⟨⟨1, 2, 10, 20, by decide, by decide, by decide, by decide⟩, 1, 1, 1⟩,
    ⟨⟨1, 2, 20, 30, by decide, by decide, by decide, by decide⟩, 5, 2, 2⟩], by decide⟩

def atHandover : IonCXref :=
  ⟨⟨1, 2, 20, 30, by decide, by decide, by decide, by decide⟩, 1000, 0, 0, 0, 0, 0, 0, 0, 0, 1, 3⟩

theorem findsInForce_iff_touching : RangesApart touching.rangeIndex ∧
    (FindsInForce touching atHandover ↔ Handover touching.rangeIndex atHandover) :=
  ⟨by decide, findsInForce_iff touching atHandover (by decide)⟩

/-- The light time found is that of the range that is over. -/
theorem ended_range_found : RangesApart touching.rangeIndex ∧ getApplicableRange touching atHandover = some 1 ∧
    ¬ FindsInForce touching atHandover := by
  refine ⟨by decide, by decide, ?_⟩
  intro h
  obtain ⟨r, hr, ⟨hp, hfrom, hto⟩, ho⟩ := (h 1).mp (by decide)
  revert r
  decide

end ApplicableRange
