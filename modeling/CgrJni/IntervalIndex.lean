import CgrJni.SortedIndex

/-!
Half-open intervals filed by group and start. An insertion that inspects only
the two neighbours of the new key decides overlap with the whole group,
provided the intervals already filed are pairwise apart.
-/

namespace IntervalIndex

variable {α γ τ : Type} [LinearOrder γ] [LinearOrder τ]

abbrev key (grp : α → γ) (lo : α → τ) (x : α) : γ ×ₗ τ := toLex (grp x, lo x)

def Apart (lo hi : α → τ) (x y : α) : Prop := hi x ≤ lo y ∨ hi y ≤ lo x

/-- Any two intervals of one group are apart. -/
def Separated (grp : α → γ) (lo hi : α → τ) (idx : SortedIndex (key grp lo)) : Prop :=
  ∀ x ∈ idx, ∀ y ∈ idx, grp x = grp y → x ≠ y → Apart lo hi x y

instance (lo hi : α → τ) (x y : α) : Decidable (Apart lo hi x y) := inferInstanceAs (Decidable (_ ∨ _))

instance [DecidableEq α] (grp : α → γ) (lo hi : α → τ) (idx : SortedIndex (key grp lo)) :
    Decidable (Separated grp lo hi idx) :=
  inferInstanceAs (Decidable (∀ x ∈ idx.entries, ∀ y ∈ idx.entries,
    grp x = grp y → x ≠ y → Apart lo hi x y))

/-- The new interval reaches into its successor. -/
def reachesNext (grp : α → γ) (lo : α → τ) (g : γ) (e : τ) : Option α → Bool
  | some n => g = grp n && lo n < e
  | none => false

/-- The new interval starts before its predecessor is over. -/
def startsInPrev (grp : α → γ) (hi : α → τ) (g : γ) (s : τ) : Option α → Bool
  | some p => g = grp p && s < hi p
  | none => false

/-- The element before a reported successor; before no successor, the last element. -/
def before {grp : α → γ} {lo : α → τ} (idx : SortedIndex (key grp lo)) : Option α → Option α
  | some n => idx.prev (key grp lo n)
  | none => idx.last

def blocked {grp : α → γ} {lo : α → τ} (hi : α → τ) (idx : SortedIndex (key grp lo))
    (g : γ) (s e : τ) (nextElt : Option α) : Bool :=
  reachesNext grp lo g e nextElt || startsInPrev grp hi g s (before idx nextElt)

variable {grp : α → γ} {lo hi : α → τ} {idx : SortedIndex (key grp lo)}

@[simp] theorem key_lt_iff (x : α) (g : γ) (s : τ) :
    key grp lo x < toLex (g, s) ↔ grp x < g ∨ grp x = g ∧ lo x < s := Prod.Lex.toLex_lt_toLex

@[simp] theorem lt_key_iff (x : α) (g : γ) (s : τ) :
    toLex (g, s) < key grp lo x ↔ g < grp x ∨ g = grp x ∧ s < lo x := Prod.Lex.toLex_lt_toLex

theorem key_le_iff (x y : α) :
    key grp lo x ≤ key grp lo y ↔ grp x < grp y ∨ grp x = grp y ∧ lo x ≤ lo y :=
  Prod.Lex.toLex_le_toLex

omit [LinearOrder γ] [LinearOrder τ] in
theorem key_eq_iff (x : α) (g : γ) (s : τ) :
    key grp lo x = toLex (g, s) ↔ grp x = g ∧ lo x = s := by
  simp [key]

/-- A key whose start no interval of the index has is not taken. -/
theorem lookup_eq_none_of_lo {s : τ} (h : ∀ x ∈ idx, lo x ≠ s) (g : γ) : idx.lookup (toLex (g, s)) = none :=
  SortedIndex.lookup_eq_none.mpr (fun x hx hkey => h x hx ((key_eq_iff x g s).mp hkey).2)

theorem startsInPrev_iff {g : γ} {s : τ} {o : Option α} :
    startsInPrev grp hi g s o = true ↔ ∃ p, o = some p ∧ grp p = g ∧ s < hi p := by
  cases o with
  | none => simp [startsInPrev]
  | some p => simp [startsInPrev, eq_comm (a := g)]

theorem reachesNext_iff {g : γ} {e : τ} {o : Option α} :
    reachesNext grp lo g e o = true ↔ ∃ n, o = some n ∧ grp n = g ∧ lo n < e := by
  cases o with
  | none => simp [reachesNext]
  | some p => simp [reachesNext, eq_comm (a := g)]

/-- For an absent key the element found before its successor is its predecessor. -/
theorem before_next {g : γ} {s : τ} (habs : idx.lookup (toLex (g, s)) = none) :
    before idx (idx.next (toLex (g, s))) = idx.prev (toLex (g, s)) := by
  have hne := SortedIndex.lookup_eq_none.mp habs
  cases hn : idx.next (toLex (g, s)) with
  | none =>
    have hle := SortedIndex.next_eq_none.mp hn
    exact (SortedIndex.prev_eq_last (fun x hx => lt_of_le_of_ne (hle x hx) (hne x hx))).symm
  | some n =>
    obtain ⟨-, hkn, hmin⟩ := SortedIndex.next_eq_some hn
    have he : idx.below (key grp lo n) = idx.below (toLex (g, s)) := by
      refine List.filter_congr (fun x hx => ?_)
      rw [decide_eq_decide]
      constructor
      · intro hlt
        exact lt_of_le_of_ne (not_lt.mp (fun h => not_le.mpr hlt (hmin x hx h))) (hne x hx)
      · intro hlt
        exact hlt.trans hkn
    simp only [before, SortedIndex.prev, he]

theorem grp_le_of_key_le {x y : α} (h : key grp lo x ≤ key grp lo y) : grp x ≤ grp y := by
  rcases (key_le_iff x y).mp h with h | ⟨h, -⟩
  · exact h.le
  · exact h.le

theorem le_grp_of_lt_key {x : α} {g : γ} {s : τ} (h : toLex (g, s) < key grp lo x) : g ≤ grp x := by
  rcases (lt_key_iff x g s).mp h with h | ⟨h, -⟩
  · exact h.le
  · exact h.le

theorem grp_le_of_key_lt {x : α} {g : γ} {s : τ} (h : key grp lo x < toLex (g, s)) : grp x ≤ g := by
  rcases (key_lt_iff x g s).mp h with h | ⟨h, -⟩
  · exact h.le
  · exact h.le

/-- Within a group the keys are in the order of the starts. -/
theorem lo_le_of_key_le {x y : α} (h : key grp lo x ≤ key grp lo y) (hg : grp x = grp y) : lo x ≤ lo y := by
  rcases (key_le_iff x y).mp h with h | ⟨-, h⟩
  · exact absurd hg (ne_of_lt h)
  · exact h

theorem lt_lo_of_lt_key {x : α} {g : γ} {s : τ} (h : toLex (g, s) < key grp lo x) (hg : grp x = g) :
    s < lo x := by
  rcases (lt_key_iff x g s).mp h with h | ⟨-, h⟩
  · exact absurd hg (ne_of_gt h)
  · exact h

theorem lo_lt_of_key_lt {x : α} {g : γ} {s : τ} (h : key grp lo x < toLex (g, s)) (hg : grp x = g) :
    lo x < s := by
  rcases (key_lt_iff x g s).mp h with h | ⟨-, h⟩
  · exact absurd hg (ne_of_lt h)
  · exact h

/-- After a key comes an interval of its group, or one of a later group when none of its own is left. -/
theorem next_cases (idx : SortedIndex (key grp lo)) (g : γ) (s : τ) :
    (∃ n ∈ idx, idx.next (toLex (g, s)) = some n ∧ grp n = g ∧ s < lo n) ∨
    ((∀ n, idx.next (toLex (g, s)) = some n → g < grp n) ∧ ∀ x ∈ idx, grp x = g → ¬ s < lo x) := by
  cases hn : idx.next (toLex (g, s)) with
  | none =>
    right
    refine ⟨fun n h => absurd h (Option.some_ne_none n).symm, fun x hx hg hlt => ?_⟩
    exact absurd (SortedIndex.next_eq_none.mp hn x hx)
      (not_le.mpr ((lt_key_iff x g s).mpr (Or.inr ⟨hg.symm, hlt⟩)))
  | some n =>
    obtain ⟨hmem, hlt, hmin⟩ := SortedIndex.next_eq_some hn
    rcases (lt_key_iff n g s).mp hlt with hg | ⟨hg, hs⟩
    · right
      refine ⟨fun m hm => Option.some.inj hm ▸ hg, fun x hx hxg hlt' => ?_⟩
      have hle := grp_le_of_key_le (hmin x hx ((lt_key_iff x g s).mpr (Or.inr ⟨hxg.symm, hlt'⟩)))
      exact absurd hle (not_le.mpr (hxg ▸ hg))
    · exact Or.inl ⟨n, hmem, rfl, hg.symm, hs⟩

/-- What the two-neighbour test finds: an interval of the group that starts within the new one,
or the one just before it, not over yet. -/
theorem blocked_next_iff {g : γ} {s e : τ} (habs : idx.lookup (toLex (g, s)) = none) :
    blocked hi idx g s e (idx.next (toLex (g, s))) = true ↔
      (∃ x ∈ idx, grp x = g ∧ s < lo x ∧ lo x < e) ∨
        ∃ p, idx.prev (toLex (g, s)) = some p ∧ grp p = g ∧ s < hi p := by
  rw [blocked, before_next habs, Bool.or_eq_true, reachesNext_iff, startsInPrev_iff]
  refine or_congr ?_ Iff.rfl
  constructor
  · rintro ⟨n, hn, hg, hlt⟩
    obtain ⟨hm, hk, -⟩ := SortedIndex.next_eq_some hn
    exact ⟨n, hm, hg, lt_lo_of_lt_key hk hg, hlt⟩
  · rintro ⟨x, hx, hg, hs, he⟩
    have hkx : toLex (g, s) < key grp lo x := (lt_key_iff x g s).mpr (Or.inr ⟨hg.symm, hs⟩)
    cases hn : idx.next (toLex (g, s)) with
    | none => exact absurd (SortedIndex.next_eq_none.mp hn x hx) (not_le.mpr hkx)
    | some n =>
      obtain ⟨hm, hk, hmin⟩ := SortedIndex.next_eq_some hn
      have hle := hmin x hx hkx
      have hgn : grp n = g := le_antisymm (hg ▸ grp_le_of_key_le hle) (le_grp_of_lt_key hk)
      exact ⟨n, rfl, hgn, (lo_le_of_key_le hle (hgn.trans hg.symm)).trans_lt he⟩

/-- The two-neighbour test decides overlap with every interval of the group. -/
theorem blocked_iff (hsep : Separated grp lo hi idx) (hval : ∀ x ∈ idx, lo x < hi x) {g : γ} {s e : τ}
    (habs : idx.lookup (toLex (g, s)) = none) :
    blocked hi idx g s e (idx.next (toLex (g, s))) = true ↔
      ∃ x ∈ idx, grp x = g ∧ (s < lo x ∧ lo x < e ∨ lo x < s ∧ s < hi x) := by
  rw [blocked_next_iff habs]
  constructor
  · rintro (⟨x, hx, hg, hin⟩ | ⟨p, hp, hg, hlt⟩)
    · exact ⟨x, hx, hg, Or.inl hin⟩
    · obtain ⟨hm, hk, -⟩ := SortedIndex.prev_eq_some hp
      exact ⟨p, hm, hg, Or.inr ⟨lo_lt_of_key_lt hk hg, hlt⟩⟩
  · rintro ⟨x, hx, hg, hin | ⟨hs, he⟩⟩
    · exact Or.inl ⟨x, hx, hg, hin⟩
    · right
      have hkx : key grp lo x < toLex (g, s) := (key_lt_iff x g s).mpr (Or.inr ⟨hg, hs⟩)
      cases hp : idx.prev (toLex (g, s)) with
      | none => exact absurd (SortedIndex.prev_eq_none.mp hp x hx) (not_le.mpr hkx)
      | some p =>
        obtain ⟨hm, hk, hmax⟩ := SortedIndex.prev_eq_some hp
        have hle := hmax x hx hkx
        have hgp : grp p = g := le_antisymm (grp_le_of_key_lt hk) (hg ▸ grp_le_of_key_le hle)
        refine ⟨p, rfl, hgp, ?_⟩
        by_cases hxp : x = p
        · rw [← hxp]
          exact he
        · cases hsep x hx p hm (hg.trans hgp.symm) hxp with
          | inl h => exact absurd (he.trans_le h) (not_lt.mpr (lo_lt_of_key_lt hk hgp).le)
          | inr h =>
            exact absurd ((hval p hm).trans_le h) (not_lt.mpr (lo_le_of_key_le hle (hg.trans hgp.symm)))

/-- What is blocked stays blocked when an interval goes in under another key, unless
that interval belongs to the group and was itself blocked. -/
theorem blocked_insert {x : α} (h : idx.lookup (key grp lo x) = none) {g : γ} {s e : τ}
    (hfree : grp x = g → blocked hi idx (grp x) (lo x) (hi x) (idx.next (key grp lo x)) = false)
    (habs : idx.lookup (toLex (g, s)) = none) (hne : key grp lo x ≠ toLex (g, s))
    (hb : blocked hi idx g s e (idx.next (toLex (g, s))) = true) :
    blocked hi (idx.insert x h) g s e ((idx.insert x h).next (toLex (g, s))) = true := by
  have habs' : (idx.insert x h).lookup (toLex (g, s)) = none := by
    rw [SortedIndex.lookup_insert_of_ne idx x h hne, habs]
  rw [blocked, before_next habs, Bool.or_eq_true] at hb
  rw [blocked, before_next habs', Bool.or_eq_true]
  cases hb with
  | inl hb =>
    left
    obtain ⟨n, hn, hg, hlt⟩ := reachesNext_iff.mp hb
    obtain ⟨hm, hk, hmin⟩ := SortedIndex.next_eq_some hn
    by_cases hx : toLex (g, s) < key grp lo x ∧ key grp lo x < key grp lo n
    · -- the new interval comes between the key and its successor, in the same group
      have hnext : (idx.insert x h).next (toLex (g, s)) = some x := by
        refine SortedIndex.next_eq_some_iff.mpr ⟨(SortedIndex.mem_insert).mpr (Or.inl rfl), hx.1, ?_⟩
        intro y hy hky
        rcases SortedIndex.mem_insert.mp hy with rfl | hy
        · exact le_rfl
        · exact hx.2.le.trans (hmin y hy hky)
      have hgx : grp x = g := le_antisymm (hg ▸ grp_le_of_key_le hx.2.le) (le_grp_of_lt_key hx.1)
      exact reachesNext_iff.mpr ⟨x, hnext, hgx, (lo_le_of_key_le hx.2.le (hgx.trans hg.symm)).trans_lt hlt⟩
    · have hnext : (idx.insert x h).next (toLex (g, s)) = some n := by
        refine SortedIndex.next_eq_some_iff.mpr ⟨SortedIndex.mem_insert.mpr (Or.inr hm), hk, ?_⟩
        intro y hy hky
        rcases SortedIndex.mem_insert.mp hy with rfl | hy
        · exact not_lt.mp (fun hlt' => hx ⟨hky, hlt'⟩)
        · exact hmin y hy hky
      exact reachesNext_iff.mpr ⟨n, hnext, hg, hlt⟩
  | inr hb =>
    right
    obtain ⟨p, hp, hg, hlt⟩ := startsInPrev_iff.mp hb
    obtain ⟨hm, hk, hmax⟩ := SortedIndex.prev_eq_some hp
    by_cases hx : key grp lo p < key grp lo x ∧ key grp lo x < toLex (g, s)
    · -- then the new interval would itself start before that predecessor is over
      exfalso
      have hprev : idx.prev (key grp lo x) = some p := by
        refine SortedIndex.prev_eq_some_iff.mpr ⟨hm, hx.1, ?_⟩
        intro y hy hky
        exact hmax y hy (hky.trans hx.2)
      have hgx : grp x = g := le_antisymm (grp_le_of_key_lt hx.2) (hg ▸ grp_le_of_key_le hx.1.le)
      have hxs : lo x < s := lo_lt_of_key_lt hx.2 hgx
      have hnb := hfree hgx
      rw [blocked, before_next h, Bool.or_eq_false_iff] at hnb
      have hst := startsInPrev_iff.mpr ⟨p, hprev, hg.trans hgx.symm, hxs.trans hlt⟩
      rw [hnb.2] at hst
      cases hst
    · have hprev : (idx.insert x h).prev (toLex (g, s)) = some p := by
        refine SortedIndex.prev_eq_some_iff.mpr ⟨SortedIndex.mem_insert.mpr (Or.inr hm), hk, ?_⟩
        intro y hy hky
        rcases SortedIndex.mem_insert.mp hy with rfl | hy
        · exact not_lt.mp (fun hlt' => hx ⟨hlt', hky⟩)
        · exact hmax y hy hky
      exact startsInPrev_iff.mpr ⟨p, hprev, hg, hlt⟩

/-- For an interval that is not empty, the test decides whether some interval of the group is not apart. -/
theorem blocked_iff_overlap (hsep : Separated grp lo hi idx) (hval : ∀ x ∈ idx, lo x < hi x) {g : γ}
    {s e : τ} (hse : s < e) (habs : idx.lookup (toLex (g, s)) = none) :
    blocked hi idx g s e (idx.next (toLex (g, s))) = true ↔
      ∃ x ∈ idx, grp x = g ∧ ¬ (e ≤ lo x ∨ hi x ≤ s) := by
  rw [blocked_iff hsep hval habs]
  refine exists_congr (fun x => and_congr_right (fun hx => and_congr_right (fun hg => ?_)))
  rw [not_or, not_le, not_le]
  constructor
  · rintro (⟨hs, he⟩ | ⟨hs, he⟩)
    · exact ⟨he, hs.trans (hval x hx)⟩
    · exact ⟨hs.trans hse, he⟩
  · rintro ⟨he, hs⟩
    rcases lt_trichotomy s (lo x) with h | h | h
    · exact Or.inl ⟨h, he⟩
    · exact absurd ((key_eq_iff x g s).mpr ⟨hg, h.symm⟩) (SortedIndex.lookup_eq_none.mp habs x hx)
    · exact Or.inr ⟨h, hs⟩

theorem separated_insert {x : α} (h : idx.lookup (key grp lo x) = none) :
    Separated grp lo hi (idx.insert x h) ↔
      Separated grp lo hi idx ∧ ∀ y ∈ idx, grp y = grp x → Apart lo hi x y := by
  constructor
  · intro hs
    refine ⟨?_, ?_⟩
    · intro a ha b hb
      exact hs a (SortedIndex.mem_insert.mpr (Or.inr ha)) b (SortedIndex.mem_insert.mpr (Or.inr hb))
    · intro y hy hg
      have hne : x ≠ y := by
        rintro rfl
        exact SortedIndex.lookup_eq_none.mp h x hy rfl
      exact hs x (SortedIndex.mem_insert.mpr (Or.inl rfl)) y
        (SortedIndex.mem_insert.mpr (Or.inr hy)) hg.symm hne
  · rintro ⟨hs, hx⟩ a ha b hb hg hne
    rcases SortedIndex.mem_insert.mp ha with hax | ha' <;>
      rcases SortedIndex.mem_insert.mp hb with hbx | hb'
    · exact absurd (hax.trans hbx.symm) hne
    · subst hax
      exact hx b hb' hg.symm
    · subst hbx
      exact (hx a ha' hg).symm
    · exact hs a ha' b hb' hg hne

theorem Separated.erase (h : Separated grp lo hi idx) (k : γ ×ₗ τ) :
    Separated grp lo hi (idx.erase k) := by
  intro a ha b hb
  exact h a (SortedIndex.mem_erase.mp ha).1 b (SortedIndex.mem_erase.mp hb).1

@[simp] theorem separated_empty : Separated grp lo hi (SortedIndex.empty : SortedIndex (key grp lo)) := by
  intro x hx
  exact absurd hx (SortedIndex.not_mem_empty x)

end IntervalIndex
