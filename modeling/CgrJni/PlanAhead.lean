import CgrJni.RfxRanges

/-!
The part of the contact plan that is still ahead at a time, and whether an edit
that changes it leaves its mark in the time of the last edit.
-/

namespace PlanAhead

open IonDb Rfx RfxContacts RfxRanges

/-- The contacts and ranges that end after a time. -/
def planAhead (now : Int) (s : IonState) : ContactIndex × RangeIndex :=
  (s.contactIndex.filter (fun c => now < c.toTime), s.rangeIndex.filter (fun r => now < r.toTime))

/-- An override that takes an imputed range out of the plan ahead, and is then either refused
or over already, so that the edit is not timed. -/
def SilentOverride (now : Int) (s : IonState) : Edit → Prop
  | .insertRange fromTime toTime fromNode toNode _ =>
    ∃ span r, Span.check fromTime toTime fromNode toNode = some span ∧
      s.rangeIndex.lookup span.key = some r ∧ r.imputed ∧ now < r.toTime ∧
      (toTime ≤ now ∨ overlapsRange (s.rangeIndex.erase r.key) span none = true)
  | _ => False

/-- A removal that takes a contact away in the very second in which it ends. -/
def RemovesEnding (now : Int) (c : IonCXref) : Edit → Prop
  | .removeContact fromTime fromNode toNode => c.Matches fromTime fromNode toNode ∧ c.toTime = now
  | _ => False

/-- An edit is timed, or leaves the plan ahead as it was. -/
structure Timed (now : Int) (s t : IonState) : Prop where
  lastEditTime : t.lastEditTime = s.lastEditTime ∨ t.lastEditTime = now
  planAhead : t.lastEditTime = now ∨ planAhead now t = planAhead now s

theorem Timed.refl (now : Int) (s : IonState) : Timed now s s := ⟨Or.inl rfl, Or.inr rfl⟩

theorem Timed.trans {now : Int} {s t u : IonState} (h : Timed now s t) (h' : Timed now t u) :
    Timed now s u := by
  obtain ⟨hl, hp⟩ := h
  obtain ⟨hl', hp'⟩ := h'
  refine ⟨?_, ?_⟩
  · cases hl' with
    | inl hl' => exact hl'.symm ▸ hl
    | inr hl' => exact Or.inr hl'
  · cases hp' with
    | inl hp' => exact Or.inl hp'
    | inr hp' =>
      cases hp with
      | inl hp =>
        cases hl' with
        | inl hl' => exact Or.inl (hl'.trans hp)
        | inr hl' => exact Or.inl hl'
      | inr hp => exact Or.inr (hp'.trans hp)

theorem editTime_cases (s : IonState) (now toTime : Int) :
    (now < toTime ∧ editTime s now toTime = now) ∨
      (toTime ≤ now ∧ editTime s now toTime = s.lastEditTime) := by
  unfold editTime
  split
  · exact Or.inl ⟨by omega, rfl⟩
  · exact Or.inr ⟨by omega, rfl⟩

theorem timed_addContact (s : IonState) (now : Int) (span : Span) (xmitRate : Nat) (prob : ℚ)
    (h : s.contactIndex.lookup span.key = none) :
    Timed now s (addContact s now span xmitRate prob h).1 := by
  rcases editTime_cases s now span.toTime with ⟨-, he⟩ | ⟨hle, he⟩
  · exact ⟨Or.inr he, Or.inl he⟩
  · refine ⟨Or.inl he, Or.inr (Prod.ext ?_ rfl)⟩
    exact SortedIndex.filter_insert_of_neg h (decide_eq_false (Int.not_lt.mpr hle))

theorem timed_insertContact (s : IonState) (now fromTime toTime : Int) (fromNode toNode xmitRate : Nat)
    (prob : ℚ) : Timed now s (rfxInsertContact s now fromTime toTime fromNode toNode xmitRate prob).1 := by
  rcases rfxInsertContact_cases s now fromTime toTime fromNode toNode xmitRate prob with
    h | ⟨span, -, -, -, h⟩
  · rw [h]
    exact Timed.refl now s
  · rw [h]
    rcases insertContact_cases s now span xmitRate prob with ⟨c, -, h'⟩ | ⟨-, -, h'⟩ | ⟨hk, -, h'⟩
    · rw [h']
      exact Timed.refl now s
    · rw [h']
      exact Timed.refl now s
    · rw [h']
      exact timed_addContact s now span xmitRate prob hk

theorem timed_deleteContact {s : IonState} {now : Int} {c : IonCXref} (hc : c ∈ s.contactIndex) :
    Timed now s (deleteContact s now c) := by
  rcases editTime_cases s now c.toTime with ⟨-, he⟩ | ⟨hle, he⟩
  · exact ⟨Or.inr he, Or.inl he⟩
  · refine ⟨Or.inl he, Or.inr (Prod.ext ?_ rfl)⟩
    exact SortedIndex.filter_erase_of_neg hc (decide_eq_false (by omega))

theorem timed_removeContact {s t : IonState} {now fromTime : Int} {fromNode toNode : Nat}
    (h : rfxRemoveContact s now fromTime fromNode toNode = some t) : Timed now s t := by
  obtain ⟨u, hu, htimed⟩ := rfxRemoveContact_spec (Timed now s) now fromTime fromNode toNode
    (fun v c hv hc _ => hv.trans (timed_deleteContact hc)) s (Timed.refl now s)
  rw [h] at hu
  exact Option.some.inj hu ▸ htimed

theorem timed_insertRXref (s : IonState) (now : Int) (r : IonRXref) (h : s.rangeIndex.lookup r.key = none) :
    ((insertRXref s now r h).lastEditTime = editTime s now r.toTime) ∧ Timed now s (insertRXref s now r h) := by
  have hassert : Timed now s (assertRange s now r h) := by
    rcases editTime_cases s now r.toTime with ⟨-, he⟩ | ⟨hle, he⟩
    · exact ⟨Or.inr he, Or.inl he⟩
    · refine ⟨Or.inl he, Or.inr (Prod.ext rfl ?_)⟩
      exact SortedIndex.filter_insert_of_neg h (decide_eq_false (Int.not_lt.mpr hle))
  rcases insertRXref_cases s now r h with ⟨-, he⟩ | ⟨-, h', he⟩
  · rw [he]
    exact ⟨rfl, hassert⟩
  · rw [he]
    refine ⟨rfl, hassert.lastEditTime, ?_⟩
    rcases editTime_cases s now r.toTime with ⟨-, ht⟩ | ⟨hle, ht⟩
    · exact Or.inl ht
    · refine Or.inr (Prod.ext rfl ?_)
      -- the imputed reverse ends when the assertion does
      have himputed : (indexRange (assertRange s now r h) (imputedEntry r (r.addr + 1)) h').rangeIndex.filter
          (fun r => now < r.toTime) = (assertRange s now r h).rangeIndex.filter (fun r => now < r.toTime) :=
        SortedIndex.filter_insert_of_neg h' (decide_eq_false (Int.not_lt.mpr hle))
      refine himputed.trans ?_
      exact SortedIndex.filter_insert_of_neg h (decide_eq_false (Int.not_lt.mpr hle))

theorem timed_addRange (s : IonState) (now : Int) (span : Span) (owlt : Nat) (nextElt : Option IonRXref)
    (h : s.rangeIndex.lookup span.key = none) : Timed now s (addRange s now span owlt nextElt h).1 := by
  have hrec : Timed now s (recordRange s span owlt) := ⟨Or.inl rfl, Or.inr rfl⟩
  apply addRange_preserves (Timed.refl now s)
  exact hrec.trans (timed_insertRXref (recordRange s span owlt) now (newRange s span owlt) h).2

/-- An override that is not silent is timed, or only replaces what is over already. -/
theorem timed_override {s : IonState} {now : Int} {span : Span} {owlt : Nat} {r : IonRXref}
    (hr : s.rangeIndex.lookup span.key = some r)
    (hloud : now < r.toTime → now < span.toTime ∧ overlapsRange (s.rangeIndex.erase r.key) span none = false) :
    Timed now s (addRange (dropImputed s r) now span owlt none (lookup_dropImputed hr)).1 := by
  by_cases hopen : now < r.toTime
  · obtain ⟨hnew, hfree⟩ := hloud hopen
    have ht : (addRange (dropImputed s r) now span owlt none (lookup_dropImputed hr)).1.lastEditTime = now := by
      have hov : overlapsRange (dropImputed s r).rangeIndex span none = false := hfree
      rw [addRange_accepted hov]
      refine (timed_insertRXref (recordRange (dropImputed s r) span owlt) now
        (newRange (dropImputed s r) span owlt) (lookup_dropImputed hr)).1.trans ?_
      unfold editTime
      exact if_pos hnew
    exact ⟨Or.inr ht, Or.inl ht⟩
  · have hdrop : Timed now s (dropImputed s r) := by
      refine ⟨Or.inl rfl, Or.inr (Prod.ext rfl ?_)⟩
      exact SortedIndex.filter_erase_of_neg (SortedIndex.lookup_eq_some.mp hr).1 (decide_eq_false hopen)
    exact hdrop.trans (timed_addRange (dropImputed s r) now span owlt none (lookup_dropImputed hr))

theorem timed_insertRange {s : IonState} {now fromTime toTime : Int} {fromNode toNode owlt : Nat}
    (hloud : ¬ SilentOverride now s (.insertRange fromTime toTime fromNode toNode owlt)) :
    Timed now s (rfxInsertRange s now fromTime toTime fromNode toNode owlt).1 := by
  rcases rfxInsertRange_cases s now fromTime toTime fromNode toNode owlt with ⟨-, h⟩ | ⟨span, hspan, h⟩
  · rw [h]
    exact Timed.refl now s
  · rw [h]
    rcases insertRange_cases s now span owlt with ⟨r, -, -, h'⟩ | ⟨r, hr, himp, h'⟩ | ⟨hk, h'⟩
    · rw [h']
      exact Timed.refl now s
    · rw [h']
      refine timed_override hr (fun hopen => ?_)
      have hto := (Span.check_eq_some hspan).2.1
      have hno : ¬ (toTime ≤ now ∨ overlapsRange (s.rangeIndex.erase r.key) span none = true) :=
        fun hor => hloud ⟨span, r, hspan, hr, himp, hopen, hor⟩
      rw [not_or] at hno
      exact ⟨by omega, Bool.eq_false_iff.mpr hno.2⟩
    · rw [h']
      exact timed_addRange s now span owlt _ hk

theorem timed_deleteRange {s : IonState} {now : Int} {r : IonRXref} (conditional : Bool)
    (hr : r ∈ s.rangeIndex) : Timed now s (deleteRange s now r conditional) := by
  unfold deleteRange
  split
  · exact Timed.refl now s
  · rcases editTime_cases s now r.toTime with ⟨-, he⟩ | ⟨hle, he⟩
    · exact ⟨Or.inr he, Or.inl he⟩
    · refine ⟨Or.inl he, Or.inr (Prod.ext rfl ?_)⟩
      exact SortedIndex.filter_erase_of_neg hr (decide_eq_false (by omega))

/-- Every edit but a silent override is timed, or leaves the plan ahead as it was. -/
theorem timed_edit {s t : IonState} {now : Int} {e : Edit} (h : edit s (now, e) = some t)
    (hloud : ¬ SilentOverride now s e) : Timed now s t := by
  cases e with
  | insertContact fromTime toTime fromNode toNode xmitRate prob =>
    exact Option.some.inj h ▸ timed_insertContact s now fromTime toTime fromNode toNode xmitRate prob
  | removeContact fromTime fromNode toNode => exact timed_removeContact h
  | insertRange fromTime toTime fromNode toNode owlt => exact Option.some.inj h ▸ timed_insertRange hloud
  | removeRange fromTime fromNode toNode =>
    exact rfxRemoveRange_preserves (Timed now s) now fromTime fromNode toNode
      (fun v r conditional hv hr => hv.trans (timed_deleteRange conditional hr)) s t (Timed.refl now s) h

theorem lastEditTime_insertRange (s : IonState) (now fromTime toTime : Int) (fromNode toNode owlt : Nat) :
    (rfxInsertRange s now fromTime toTime fromNode toNode owlt).1.lastEditTime = s.lastEditTime ∨
      (rfxInsertRange s now fromTime toTime fromNode toNode owlt).1.lastEditTime = now := by
  rcases rfxInsertRange_cases s now fromTime toTime fromNode toNode owlt with ⟨-, h⟩ | ⟨span, -, h⟩
  · rw [h]
    exact Or.inl rfl
  · rw [h]
    rcases insertRange_cases s now span owlt with ⟨r, -, -, h'⟩ | ⟨r, hr, -, h'⟩ | ⟨hk, h'⟩
    · rw [h']
      exact Or.inl rfl
    · rw [h']
      exact (timed_addRange (dropImputed s r) now span owlt none (lookup_dropImputed hr)).lastEditTime
    · rw [h']
      exact (timed_addRange s now span owlt _ hk).lastEditTime

/-- The time of the last edit is only ever set to the current time. -/
theorem lastEditTime_edit {s t : IonState} {now : Int} {e : Edit} (h : edit s (now, e) = some t) :
    t.lastEditTime = s.lastEditTime ∨ t.lastEditTime = now := by
  cases e with
  | insertContact fromTime toTime fromNode toNode xmitRate prob =>
    exact (timed_edit h (by simp [SilentOverride])).lastEditTime
  | removeContact fromTime fromNode toNode => exact (timed_edit h (by simp [SilentOverride])).lastEditTime
  | insertRange fromTime toTime fromNode toNode owlt =>
    exact Option.some.inj h ▸ lastEditTime_insertRange s now fromTime toTime fromNode toNode owlt
  | removeRange fromTime fromNode toNode => exact (timed_edit h (by simp [SilentOverride])).lastEditTime

/-- A contact that an edit takes out of the index was still ahead, or over, or is removed as it ends. -/
theorem contact_kept {s t : IonState} {now : Int} {e : Edit} (h : edit s (now, e) = some t)
    (hplan : planAhead now t = planAhead now s) {c : IonCXref} (hending : ¬ RemovesEnding now c e)
    (hc : c ∈ s.contactIndex) : c ∈ t.contactIndex ∨ c.toTime < now := by
  rcases Int.lt_trichotomy c.toTime now with hlt | heq | hgt
  · exact Or.inr hlt
  · left
    cases e with
    | insertContact fromTime toTime fromNode toNode xmitRate prob =>
      have hs : (rfxInsertContact s now fromTime toTime fromNode toNode xmitRate prob).1 = t :=
        Option.some.inj h
      rw [← hs]
      rcases rfxInsertContact_cases s now fromTime toTime fromNode toNode xmitRate prob with
        h' | ⟨span, -, -, -, h'⟩
      · rw [h']
        exact hc
      · rw [h']
        rcases insertContact_cases s now span xmitRate prob with ⟨d, -, h''⟩ | ⟨-, -, h''⟩ | ⟨hk, -, h''⟩
        · rw [h'']
          exact hc
        · rw [h'']
          exact hc
        · rw [h'']
          simp only [addContact, insertCXref, SortedIndex.mem_insert]
          exact Or.inr hc
    | removeContact fromTime fromNode toNode =>
      -- every contact deleted on the way matches, and this one does not
      obtain ⟨u, hu, hkept⟩ := rfxRemoveContact_spec (fun v => c ∈ v.contactIndex) now fromTime fromNode toNode
        (fun v d hv hd hm => by
          refine SortedIndex.mem_erase.mpr ⟨hv, fun hk => ?_⟩
          obtain rfl := SortedIndex.key_inj hv hd hk
          exact hending ⟨hm, heq⟩)
        s hc
      have he : rfxRemoveContact s now fromTime fromNode toNode = some t := h
      rw [he] at hu
      exact Option.some.inj hu ▸ hkept
    | insertRange fromTime toTime fromNode toNode owlt =>
      have hs : (rfxInsertRange s now fromTime toTime fromNode toNode owlt).1 = t := Option.some.inj h
      rw [← hs, (rfxInsertRange_sameContacts s now fromTime toTime fromNode toNode owlt).contactIndex]
      exact hc
    | removeRange fromTime fromNode toNode =>
      refine rfxRemoveRange_preserves (fun v => c ∈ v.contactIndex) now fromTime fromNode toNode ?_ s t hc h
      intro v r conditional hv _
      unfold deleteRange
      split
      · exact hv
      · exact hv
  · left
    have hmem : c ∈ (planAhead now t).1 := by
      rw [hplan]
      exact SortedIndex.mem_filter.mpr ⟨hc, decide_eq_true hgt⟩
    exact (SortedIndex.mem_filter.mp hmem).1

end PlanAhead
