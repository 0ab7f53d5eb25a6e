import Mathlib

/-!
Ordered indexes with unique keys, as a caller of a balanced search tree sees
them: the elements in ascending key order, exact lookup, the neighbours of a
key, and traversals. Nothing here depends on how the tree is balanced.
-/

structure SortedIndex {α κ : Type} [LT κ] (key : α → κ) where
  entries : List α
  sorted : entries.Pairwise (fun x y => key x < key y)

namespace SortedIndex

variable {α κ : Type} [LinearOrder κ] {key : α → κ}

instance : Membership α (SortedIndex key) where
  mem idx x := x ∈ idx.entries

@[simp] theorem mem_entries {idx : SortedIndex key} {x : α} : x ∈ idx.entries ↔ x ∈ idx := Iff.rfl

instance [DecidableEq α] : DecidableEq (SortedIndex key) := fun a b =>
  decidable_of_iff (a.entries = b.entries) ⟨by cases a; cases b; simp, by rintro rfl; rfl⟩

instance [DecidableEq α] (x : α) (idx : SortedIndex key) : Decidable (x ∈ idx) :=
  inferInstanceAs (Decidable (x ∈ idx.entries))

def empty : SortedIndex key := ⟨[], List.Pairwise.nil⟩

@[simp] theorem not_mem_empty (x : α) : x ∉ (empty : SortedIndex key) := List.not_mem_nil

def above (idx : SortedIndex key) (k : κ) : List α := idx.entries.filter (fun x => k < key x)

def below (idx : SortedIndex key) (k : κ) : List α := idx.entries.filter (fun x => key x < k)

def lookup (idx : SortedIndex key) (k : κ) : Option α := idx.entries.find? (fun x => key x = k)

/-- The element after a key and the element before it, whether or not it is present. -/
def next (idx : SortedIndex key) (k : κ) : Option α := (idx.above k).head?

def prev (idx : SortedIndex key) (k : κ) : Option α := (idx.below k).getLast?

def last (idx : SortedIndex key) : Option α := idx.entries.getLast?

/-- The successor a search reports: none at all when the key itself was found. -/
def successor (idx : SortedIndex key) (k : κ) : Option α :=
  match idx.lookup k with
  | some _ => none
  | none => idx.next k

/-- The elements met by a traversal that starts at the reported successor. -/
def scan (idx : SortedIndex key) (k : κ) : List α :=
  match idx.lookup k with
  | some _ => []
  | none => idx.above k

@[simp] theorem mem_above {idx : SortedIndex key} {k : κ} {x : α} :
    x ∈ idx.above k ↔ x ∈ idx ∧ k < key x := by
  simp [above]

@[simp] theorem mem_below {idx : SortedIndex key} {k : κ} {x : α} :
    x ∈ idx.below k ↔ x ∈ idx ∧ key x < k := by
  simp [below]

theorem above_sorted (idx : SortedIndex key) (k : κ) :
    (idx.above k).Pairwise (fun x y => key x < key y) := idx.sorted.filter _

theorem below_sorted (idx : SortedIndex key) (k : κ) :
    (idx.below k).Pairwise (fun x y => key x < key y) := idx.sorted.filter _

theorem nodup_keys (idx : SortedIndex key) : (idx.entries.map key).Nodup :=
  List.pairwise_map.mpr (idx.sorted.imp (fun h => h.ne))

theorem nodup (idx : SortedIndex key) : idx.entries.Nodup := idx.nodup_keys.of_map key

theorem key_inj {idx : SortedIndex key} {x y : α} (hx : x ∈ idx) (hy : y ∈ idx)
    (h : key x = key y) : x = y :=
  List.inj_on_of_nodup_map idx.nodup_keys hx hy h

theorem lookup_eq_none {idx : SortedIndex key} {k : κ} :
    idx.lookup k = none ↔ ∀ x ∈ idx, key x ≠ k := by
  simp [lookup]

theorem lookup_eq_some {idx : SortedIndex key} {k : κ} {x : α} :
    idx.lookup k = some x ↔ x ∈ idx ∧ key x = k := by
  constructor
  · intro h
    exact ⟨List.mem_of_find?_eq_some h, by simpa using List.find?_some h⟩
  · rintro ⟨hx, hk⟩
    cases h : idx.lookup k with
    | none => exact absurd hk (lookup_eq_none.mp h x hx)
    | some y =>
      have hy : y ∈ idx := List.mem_of_find?_eq_some h
      have hyk : key y = k := by simpa using List.find?_some h
      rw [key_inj hx hy (hk.trans hyk.symm)]

def insert (idx : SortedIndex key) (x : α) (h : idx.lookup (key x) = none) : SortedIndex key where
  entries := idx.below (key x) ++ x :: idx.above (key x)
  sorted := by
    rw [List.pairwise_append, List.pairwise_cons]
    refine ⟨idx.below_sorted _, ⟨?_, idx.above_sorted _⟩, ?_⟩
    · intro y hy
      exact (mem_above.mp hy).2
    · intro a ha b hb
      have hax := (mem_below.mp ha).2
      rcases List.mem_cons.mp hb with rfl | hb
      · exact hax
      · exact hax.trans (mem_above.mp hb).2

def erase (idx : SortedIndex key) (k : κ) : SortedIndex key where
  entries := idx.entries.filter (fun x => key x ≠ k)
  sorted := idx.sorted.filter _

@[simp] theorem mem_insert {idx : SortedIndex key} {x y : α} {h : idx.lookup (key x) = none} :
    y ∈ idx.insert x h ↔ y = x ∨ y ∈ idx := by
  have hy : y ∈ idx.insert x h ↔ y ∈ idx.below (key x) ++ x :: idx.above (key x) := Iff.rfl
  rw [hy, List.mem_append, List.mem_cons, mem_below, mem_above]
  constructor
  · rintro (⟨h1, -⟩ | h1 | ⟨h1, -⟩)
    · exact Or.inr h1
    · exact Or.inl h1
    · exact Or.inr h1
  · rintro (rfl | hm)
    · exact Or.inr (Or.inl rfl)
    · rcases lt_trichotomy (key y) (key x) with hlt | heq | hgt
      · exact Or.inl ⟨hm, hlt⟩
      · exact absurd heq (lookup_eq_none.mp h y hm)
      · exact Or.inr (Or.inr ⟨hm, hgt⟩)

theorem mem_insert_self (idx : SortedIndex key) (x : α) (h : idx.lookup (key x) = none) :
    x ∈ idx.insert x h := mem_insert.mpr (Or.inl rfl)

@[simp] theorem mem_erase {idx : SortedIndex key} {k : κ} {y : α} :
    y ∈ idx.erase k ↔ y ∈ idx ∧ key y ≠ k := by
  have hy : y ∈ idx.erase k ↔ y ∈ idx.entries.filter (fun x => key x ≠ k) := Iff.rfl
  rw [hy, List.mem_filter]
  simp

@[simp] theorem lookup_erase_self (idx : SortedIndex key) (k : κ) : (idx.erase k).lookup k = none := by
  rw [lookup_eq_none]
  intro x hx
  exact (mem_erase.mp hx).2

theorem lookup_insert_self (idx : SortedIndex key) (x : α) (h : idx.lookup (key x) = none) :
    (idx.insert x h).lookup (key x) = some x :=
  lookup_eq_some.mpr ⟨mem_insert.mpr (Or.inl rfl), rfl⟩

theorem lookup_insert_of_ne (idx : SortedIndex key) (x : α) (h : idx.lookup (key x) = none) {k : κ}
    (hk : key x ≠ k) : (idx.insert x h).lookup k = idx.lookup k := by
  cases hl : idx.lookup k with
  | some y =>
    obtain ⟨hy, hyk⟩ := lookup_eq_some.mp hl
    exact lookup_eq_some.mpr ⟨mem_insert.mpr (Or.inr hy), hyk⟩
  | none =>
    rw [lookup_eq_none] at hl ⊢
    intro y hy
    rcases mem_insert.mp hy with rfl | hy
    · exact hk
    · exact hl y hy

theorem length_erase_lt {idx : SortedIndex key} {x : α} (hx : x ∈ idx) :
    (idx.erase (key x)).entries.length < idx.entries.length := by
  refine List.length_filter_lt_length_iff_exists.mpr ⟨x, hx, ?_⟩
  simp

/-- Two indexes over the same elements are the same index. -/
theorem ext_mem {a b : SortedIndex key} (h : ∀ x, x ∈ a ↔ x ∈ b) : a = b := by
  have hp : a.entries.Perm b.entries := (List.perm_ext_iff_of_nodup a.nodup b.nodup).mpr h
  have he : a.entries = b.entries := hp.eq_of_pairwise
    (fun x y _ _ hxy hyx => absurd (hxy.trans hyx) (lt_irrefl _)) a.sorted b.sorted
  cases a; cases b; simp_all

theorem insert_perm (idx : SortedIndex key) (x : α) (h : idx.lookup (key x) = none) :
    (idx.insert x h).entries.Perm (x :: idx.entries) := by
  have hx : x ∉ idx.entries := fun hx => lookup_eq_none.mp h x hx rfl
  refine (List.perm_ext_iff_of_nodup (idx.insert x h).nodup (List.nodup_cons.mpr ⟨hx, idx.nodup⟩)).mpr ?_
  intro y
  rw [List.mem_cons]
  exact mem_insert

theorem perm_erase {idx : SortedIndex key} {x : α} (hx : x ∈ idx) :
    idx.entries.Perm (x :: (idx.erase (key x)).entries) := by
  have hgone : x ∉ (idx.erase (key x)).entries := fun h => (mem_erase.mp h).2 rfl
  refine (List.perm_ext_iff_of_nodup idx.nodup (List.nodup_cons.mpr ⟨hgone, nodup _⟩)).mpr ?_
  intro y
  rw [List.mem_cons]
  constructor
  · intro hy
    by_cases hk : key y = key x
    · exact Or.inl (key_inj hy hx hk)
    · exact Or.inr (mem_erase.mpr ⟨hy, hk⟩)
  · rintro (rfl | hy)
    · exact hx
    · exact (mem_erase.mp hy).1

/-- An insertion in key order, as on a plain list. -/
theorem entries_insert (idx : SortedIndex key) (x : α) (h : idx.lookup (key x) = none) :
    (idx.insert x h).entries = idx.entries.orderedInsert (fun a b => key a ≤ key b) x := by
  have hmem : ∀ l : List α, (∀ y ∈ l, key y ≠ key x) → l.Pairwise (fun a b => key a < key b) →
      l.filter (fun y => key y < key x) ++ x :: l.filter (fun y => key x < key y) =
        l.orderedInsert (fun a b => key a ≤ key b) x := by
    intro l hne hs
    induction l with
    | nil => rfl
    | cons y rest ih =>
      rw [List.pairwise_cons] at hs
      cases lt_or_gt_of_ne (hne y List.mem_cons_self) with
      | inl hlt =>
        rw [List.orderedInsert_cons, if_neg (not_le.mpr hlt), ← ih (fun z hz => hne z (List.mem_cons_of_mem y hz)) hs.2]
        simp [hlt, hlt.le]
      | inr hgt =>
        have hrest : ∀ z ∈ rest, key x < key z := fun z hz => lt_trans hgt (hs.1 z hz)
        have hnone : rest.filter (fun z => key z < key x) = [] :=
          List.filter_eq_nil_iff.mpr (fun z hz => by simp [(hrest z hz).le])
        have hall : rest.filter (fun z => key x < key z) = rest :=
          List.filter_eq_self.mpr (fun z hz => by simp [hrest z hz])
        rw [List.orderedInsert_cons, if_pos hgt.le]
        simp [hnone, hall, hgt, le_of_lt hgt]
  exact hmem idx.entries (lookup_eq_none.mp h) idx.sorted

/-- A cut between lesser and greater keys is where an insertion puts its element. -/
theorem entries_insert_of_split {idx : SortedIndex key} {x : α} {A B : List α} (h : idx.lookup (key x) = none)
    (hsplit : idx.entries = A ++ B) (hA : ∀ a ∈ A, key a < key x) (hB : ∀ b ∈ B, key x < key b) :
    (idx.insert x h).entries = A ++ x :: B := by
  have hbelow : idx.below (key x) = A := by
    have hnone : B.filter (fun b => key b < key x) = [] :=
      List.filter_eq_nil_iff.mpr (fun b hb => by simp [(hB b hb).le])
    rw [below, hsplit, List.filter_append, hnone, List.append_nil]
    exact List.filter_eq_self.mpr (by simpa using hA)
  have habove : idx.above (key x) = B := by
    have hnone : A.filter (fun a => key x < key a) = [] :=
      List.filter_eq_nil_iff.mpr (fun a ha => by simp [(hA a ha).le])
    rw [above, hsplit, List.filter_append, hnone, List.nil_append]
    exact List.filter_eq_self.mpr (by simpa using hB)
  have hdef : (idx.insert x h).entries = idx.below (key x) ++ x :: idx.above (key x) := rfl
  rw [hdef, hbelow, habove]

/-- The elements that satisfy a condition. -/
def filter (idx : SortedIndex key) (p : α → Bool) : SortedIndex key where
  entries := idx.entries.filter p
  sorted := idx.sorted.filter _

@[simp] theorem mem_filter {idx : SortedIndex key} {p : α → Bool} {x : α} :
    x ∈ idx.filter p ↔ x ∈ idx ∧ p x = true := List.mem_filter

theorem filter_insert_of_neg {idx : SortedIndex key} {p : α → Bool} {x : α}
    (h : idx.lookup (key x) = none) (hp : p x = false) : (idx.insert x h).filter p = idx.filter p := by
  refine ext_mem (fun y => ?_)
  simp only [mem_filter, mem_insert]
  constructor
  · rintro ⟨rfl | hy, hpy⟩
    · rw [hp] at hpy
      cases hpy
    · exact ⟨hy, hpy⟩
  · rintro ⟨hy, hpy⟩
    exact ⟨Or.inr hy, hpy⟩

theorem filter_erase_of_neg {idx : SortedIndex key} {p : α → Bool} {x : α} (hx : x ∈ idx)
    (hp : p x = false) : (idx.erase (key x)).filter p = idx.filter p := by
  refine ext_mem (fun y => ?_)
  simp only [mem_filter, mem_erase]
  constructor
  · rintro ⟨⟨hy, -⟩, hpy⟩
    exact ⟨hy, hpy⟩
  · rintro ⟨hy, hpy⟩
    refine ⟨⟨hy, fun hk => ?_⟩, hpy⟩
    rw [key_inj hy hx hk, hp] at hpy
    cases hpy

/-- A map that leaves keys alone yields the same list from indexes with the same images. -/
theorem map_entries_congr {a b : SortedIndex key} {f : α → α} (hkey : ∀ x, key (f x) = key x)
    (h : ∀ y, (∃ x ∈ a, f x = y) ↔ ∃ x ∈ b, f x = y) : a.entries.map f = b.entries.map f := by
  have hsorted : ∀ idx : SortedIndex key, (idx.entries.map f).Pairwise (fun x y => key x < key y) := by
    intro idx
    rw [List.pairwise_map]
    simpa only [hkey] using idx.sorted
  have he : (⟨a.entries.map f, hsorted a⟩ : SortedIndex key) = ⟨b.entries.map f, hsorted b⟩ := by
    refine ext_mem (fun y => ?_)
    rw [← mem_entries, ← mem_entries, List.mem_map, List.mem_map]
    exact h y
  exact congrArg SortedIndex.entries he

theorem next_eq_none {idx : SortedIndex key} {k : κ} :
    idx.next k = none ↔ ∀ x ∈ idx, key x ≤ k := by
  simp only [next, List.head?_eq_none_iff, above, List.filter_eq_nil_iff, decide_eq_true_eq, not_lt,
    mem_entries]

theorem next_eq_some {idx : SortedIndex key} {k : κ} {n : α} (h : idx.next k = some n) :
    n ∈ idx ∧ k < key n ∧ ∀ x ∈ idx, k < key x → key n ≤ key x := by
  obtain ⟨rest, hr⟩ := List.head?_eq_some_iff.mp h
  have hn : n ∈ idx.above k := by rw [hr]; simp
  refine ⟨(mem_above.mp hn).1, (mem_above.mp hn).2, ?_⟩
  intro x hx hk
  have hxa : x ∈ idx.above k := mem_above.mpr ⟨hx, hk⟩
  have hs := idx.above_sorted k
  rw [hr] at hxa hs
  rcases List.mem_cons.mp hxa with rfl | hxr
  · exact le_rfl
  · exact (List.rel_of_pairwise_cons hs hxr).le

theorem next_eq_some_iff {idx : SortedIndex key} {k : κ} {n : α} :
    idx.next k = some n ↔ n ∈ idx ∧ k < key n ∧ ∀ x ∈ idx, k < key x → key n ≤ key x := by
  refine ⟨next_eq_some, ?_⟩
  rintro ⟨hn, hk, hmin⟩
  cases h : idx.next k with
  | none => exact absurd (next_eq_none.mp h n hn) (not_le.mpr hk)
  | some m =>
    obtain ⟨hm, hkm, hmin'⟩ := next_eq_some h
    rw [key_inj hm hn (le_antisymm (hmin' n hn hk) (hmin m hm hkm))]

theorem getLast_max {l : List α} (hs : l.Pairwise (fun x y => key x < key y)) {p : α}
    (h : l.getLast? = some p) : p ∈ l ∧ ∀ x ∈ l, key x ≤ key p := by
  obtain ⟨ys, rfl⟩ := List.getLast?_eq_some_iff.mp h
  refine ⟨by simp, ?_⟩
  intro x hx
  cases List.mem_append.mp hx with
  | inl hx => exact (List.pairwise_append.mp hs).2.2 x hx p (by simp) |>.le
  | inr hx => rw [List.mem_singleton.mp hx]

theorem prev_eq_none {idx : SortedIndex key} {k : κ} :
    idx.prev k = none ↔ ∀ x ∈ idx, k ≤ key x := by
  simp only [prev, List.getLast?_eq_none_iff, below, List.filter_eq_nil_iff, decide_eq_true_eq, not_lt,
    mem_entries]

theorem prev_eq_some {idx : SortedIndex key} {k : κ} {p : α} (h : idx.prev k = some p) :
    p ∈ idx ∧ key p < k ∧ ∀ x ∈ idx, key x < k → key x ≤ key p := by
  obtain ⟨hm, hmax⟩ := getLast_max (idx.below_sorted k) h
  refine ⟨(mem_below.mp hm).1, (mem_below.mp hm).2, ?_⟩
  intro x hx hk
  exact hmax x (mem_below.mpr ⟨hx, hk⟩)

theorem prev_eq_some_iff {idx : SortedIndex key} {k : κ} {p : α} :
    idx.prev k = some p ↔ p ∈ idx ∧ key p < k ∧ ∀ x ∈ idx, key x < k → key x ≤ key p := by
  refine ⟨prev_eq_some, ?_⟩
  rintro ⟨hp, hk, hmax⟩
  cases h : idx.prev k with
  | none => exact absurd (prev_eq_none.mp h p hp) (not_le.mpr hk)
  | some m =>
    obtain ⟨hm, hkm, hmax'⟩ := prev_eq_some h
    rw [key_inj hm hp (le_antisymm (hmax m hm hkm) (hmax' p hp hk))]

theorem last_eq_none {idx : SortedIndex key} : idx.last = none ↔ ∀ x, x ∉ idx := by
  simp only [last, List.getLast?_eq_none_iff, List.eq_nil_iff_forall_not_mem, mem_entries]

theorem last_eq_some {idx : SortedIndex key} {p : α} (h : idx.last = some p) :
    p ∈ idx ∧ ∀ x ∈ idx, key x ≤ key p :=
  getLast_max idx.sorted h

/-- The last element below a key that exceeds every key is the last element. -/
theorem prev_eq_last {idx : SortedIndex key} {k : κ} (h : ∀ x ∈ idx, key x < k) :
    idx.prev k = idx.last := by
  have he : idx.below k = idx.entries := List.filter_eq_self.mpr (by simpa using h)
  simp only [prev, last, he]

theorem successor_of_absent {idx : SortedIndex key} {k : κ} (h : idx.lookup k = none) :
    idx.successor k = idx.next k := by
  simp only [successor, h]

theorem successor_eq_some {idx : SortedIndex key} {k : κ} {n : α} (h : idx.successor k = some n) :
    idx.lookup k = none ∧ idx.next k = some n := by
  unfold successor at h
  split at h
  · cases h
  · exact ⟨by assumption, h⟩

theorem scan_of_absent {idx : SortedIndex key} {k : κ} (h : idx.lookup k = none) :
    idx.scan k = idx.above k := by
  simp only [scan, h]

/-- In key order, a condition that fails from some key on cuts the list there. -/
theorem takeWhile_eq_filter {l : List α} (hs : l.Pairwise (fun x y => key x < key y)) {p : α → Bool}
    (hmono : ∀ x y, key x < key y → p y = true → p x = true) : l.takeWhile p = l.filter p := by
  induction l with
  | nil => rfl
  | cons x rest ih =>
    rw [List.pairwise_cons] at hs
    cases hx : p x with
    | true => rw [List.takeWhile_cons_of_pos hx, List.filter_cons_of_pos hx, ih hs.2]
    | false =>
      rw [List.takeWhile_cons_of_neg (by simp [hx]), List.filter_cons_of_neg (by simp [hx])]
      refine (List.filter_eq_nil_iff.mpr (fun y hy hpy => ?_)).symm
      rw [hmono x y (hs.1 y hy) hpy] at hx
      cases hx

/-- Lists in key order with the same members are the same list. -/
theorem eq_of_mem_iff {l l' : List α} (hs : l.Pairwise (fun x y => key x < key y))
    (hs' : l'.Pairwise (fun x y => key x < key y)) (h : ∀ x, x ∈ l ↔ x ∈ l') : l = l' := by
  have he : (⟨l, hs⟩ : SortedIndex key) = ⟨l', hs'⟩ := ext_mem h
  exact congrArg SortedIndex.entries he

/-- The elements with keys between two keys. -/
def between (idx : SortedIndex key) (k m : κ) : List α := idx.entries.filter (fun x => k < key x ∧ key x < m)

@[simp] theorem mem_between {idx : SortedIndex key} {k m : κ} {x : α} :
    x ∈ idx.between k m ↔ x ∈ idx ∧ k < key x ∧ key x < m := by
  simp [between]

/-- What is above a key comes in two parts, before and after an element. -/
theorem above_of_mem {idx : SortedIndex key} {k : κ} {x : α} (hx : x ∈ idx) (hk : k < key x) :
    idx.above k = idx.between k (key x) ++ x :: idx.above (key x) := by
  apply eq_of_mem_iff (idx.above_sorted k)
  · rw [List.pairwise_append, List.pairwise_cons]
    refine ⟨idx.sorted.filter _, ⟨?_, idx.above_sorted _⟩, ?_⟩
    · intro y hy
      exact (mem_above.mp hy).2
    · intro a ha b hb
      have hax := (mem_between.mp ha).2.2
      cases List.mem_cons.mp hb with
      | inl he => exact he ▸ hax
      | inr hb => exact hax.trans (mem_above.mp hb).2
  · intro y
    rw [List.mem_append, List.mem_cons, mem_above, mem_between, mem_above]
    constructor
    · rintro ⟨hy, hky⟩
      obtain hlt | heq | hgt := lt_trichotomy (key y) (key x)
      · exact Or.inl ⟨hy, hky, hlt⟩
      · exact Or.inr (Or.inl (key_inj hy hx heq))
      · exact Or.inr (Or.inr ⟨hy, hgt⟩)
    · rintro (⟨hy, hky, -⟩ | rfl | ⟨hy, hxy⟩)
      · exact ⟨hy, hky⟩
      · exact ⟨hx, hk⟩
      · exact ⟨hy, hk.trans hxy⟩

/-- The same for a key that no element has. -/
theorem above_of_absent {idx : SortedIndex key} {k m : κ} (hk : k ≤ m) (habs : ∀ x ∈ idx, key x ≠ m) :
    idx.above k = idx.between k m ++ idx.above m := by
  apply eq_of_mem_iff (idx.above_sorted k)
  · rw [List.pairwise_append]
    refine ⟨idx.sorted.filter _, idx.above_sorted _, ?_⟩
    intro a ha b hb
    exact (mem_between.mp ha).2.2.trans (mem_above.mp hb).2
  · intro y
    rw [List.mem_append, mem_above, mem_between, mem_above]
    constructor
    · rintro ⟨hy, hky⟩
      cases lt_or_gt_of_ne (habs y hy) with
      | inl hlt => exact Or.inl ⟨hy, hky, hlt⟩
      | inr hgt => exact Or.inr ⟨hy, hgt⟩
    · rintro (⟨hy, hky, -⟩ | ⟨hy, hmy⟩)
      · exact ⟨hy, hky⟩
      · exact ⟨hy, lt_of_le_of_lt hk hmy⟩

end SortedIndex
