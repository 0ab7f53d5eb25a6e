import CgrJni.IntervalIndex

/-!
Ordered indexes of addresses. The records themselves are kept in a store from which each can be
released on its own, and to compare an address with a key is to read the record that is there.
-/

namespace RecordIndex

abbrev Address := Nat

/-- The records that have been allocated and not released. -/
abbrev Store (ρ : Type) := AList (fun _ : Address => ρ)

section

variable {ρ κ : Type}

/-- A read at an address that has been released fails with the address. -/
def read (store : Store ρ) (a : Address) : Except Address ρ :=
  match store.lookup a with
  | some r => .ok r
  | none => .error a

def readAny (store : Store ρ) : Option Address → Except Address (Option ρ)
  | none => .ok none
  | some a => (read store a).map some

theorem read_eq_ok {store : Store ρ} {a : Address} {r : ρ} : read store a = .ok r ↔ store.lookup a = some r := by
  unfold read
  cases store.lookup a with
  | none => simp
  | some r' => simp

theorem read_released (store : Store ρ) (a : Address) : read (store.erase a) a = .error a := by
  rw [read, AList.lookup_erase]

end

section

variable {ρ κ : Type} [LinearOrder κ] (key : ρ → κ)

/-- The address whose record has the key, or else the first one past it. -/
def search (store : Store ρ) (k : κ) : List Address → Except Address (Option Address × Option Address)
  | [] => .ok (none, none)
  | a :: rest => do
    let r ← read store a
    if key r < k then search store k rest
    else if key r = k then return (some a, none)
    else return (none, some a)

def insertAddress (store : Store ρ) (a : Address) (k : κ) : List Address → Except Address (List Address)
  | [] => .ok [a]
  | b :: rest => do
    let r ← read store b
    if key r < k then
      let rest ← insertAddress store a k rest
      return b :: rest
    else return a :: b :: rest

/-- The address whose record has the key, and the index without it. -/
def takeOut (store : Store ρ) (k : κ) : List Address → Except Address (Option Address × List Address)
  | [] => .ok (none, [])
  | a :: rest => do
    let r ← read store a
    if key r < k then
      let (found, rest) ← takeOut store k rest
      return (found, a :: rest)
    else if key r = k then return (some a, rest)
    else return (none, a :: rest)

end

/-- The address before another one in an index. -/
def before (a : Address) (index : List Address) : Option Address := (index.takeWhile (fun b => b ≠ a)).getLast?

/-- Whether an interval reaches into its successor or starts before its predecessor is over; the
predecessor is read only if the first test does not decide. -/
def blocked {ρ γ τ : Type} [LinearOrder γ] [LinearOrder τ] (grp : ρ → γ) (lo hi : ρ → τ) (store : Store ρ)
    (index : List Address) (g : γ) (s e : τ) (nextElt : Option Address) : Except Address Bool := do
  let next ← readAny store nextElt
  if IntervalIndex.reachesNext grp lo g e next then return true
  else
    let prev ← readAny store (match nextElt with
      | some a => before a index
      | none => index.getLast?)
    return IntervalIndex.startsInPrev grp hi g s prev

variable {ρ κ : Type} [LinearOrder κ] {key : ρ → κ} {addr : ρ → Address} {store : Store ρ} {k : κ} {l : List ρ}

theorem search_map (hsorted : l.Pairwise (fun x y => key x < key y)) (hread : ∀ r ∈ l, read store (addr r) = .ok r) :
    search key store k (l.map addr) =
      .ok ((l.find? (fun r => key r = k)).map addr,
        match l.find? (fun r => key r = k) with
        | some _ => none
        | none => (l.filter (fun r => k < key r)).head?.map addr) := by
  induction l with
  | nil => rfl
  | cons r rest ih =>
    rw [List.pairwise_cons] at hsorted
    rw [List.map_cons, search, hread r List.mem_cons_self]
    simp only [bind, Except.bind]
    rcases lt_trichotomy (key r) k with hlt | heq | hgt
    · rw [if_pos hlt, ih hsorted.2 (fun x hx => hread x (List.mem_cons_of_mem r hx))]
      simp [hlt.ne, hlt.le]
    · simp [heq, pure, Except.pure]
    · have hnone : rest.find? (fun x => key x = k) = none := by
        rw [List.find?_eq_none]
        intro x hx
        simp [(hgt.trans (hsorted.1 x hx)).ne']
      simp [hgt, hgt.le, hgt.ne', hnone, pure, Except.pure]

theorem insertAddress_map {x : ρ} (hread : ∀ r ∈ l, read store (addr r) = .ok r) (hne : ∀ r ∈ l, key r ≠ key x) :
    insertAddress key store (addr x) (key x) (l.map addr) =
      .ok ((l.orderedInsert (fun a b => key a ≤ key b) x).map addr) := by
  induction l with
  | nil => rfl
  | cons r rest ih =>
    rw [List.map_cons, insertAddress, hread r List.mem_cons_self]
    simp only [bind, Except.bind]
    cases lt_or_gt_of_ne (hne r List.mem_cons_self) with
    | inl hlt =>
      rw [if_pos hlt, ih (fun y hy => hread y (List.mem_cons_of_mem r hy)) (fun y hy => hne y (List.mem_cons_of_mem r hy)),
        List.orderedInsert_cons, if_neg (not_le.mpr hlt)]
      rfl
    | inr hgt =>
      rw [if_neg (not_lt.mpr hgt.le), List.orderedInsert_cons, if_pos hgt.le]
      rfl

theorem takeOut_map (hsorted : l.Pairwise (fun x y => key x < key y)) (hread : ∀ r ∈ l, read store (addr r) = .ok r) :
    takeOut key store k (l.map addr) =
      .ok ((l.find? (fun r => key r = k)).map addr, (l.filter (fun r => key r ≠ k)).map addr) := by
  induction l with
  | nil => rfl
  | cons r rest ih =>
    rw [List.pairwise_cons] at hsorted
    rw [List.map_cons, takeOut, hread r List.mem_cons_self]
    simp only [bind, Except.bind]
    have hgone : k ≤ key r → rest.find? (fun x => key x = k) = none ∧ rest.filter (fun x => key x ≠ k) = rest := by
      intro hle
      have hne : ∀ x ∈ rest, key x ≠ k := fun x hx => (hle.trans_lt (hsorted.1 x hx)).ne'
      exact ⟨List.find?_eq_none.mpr (by simpa using hne), List.filter_eq_self.mpr (by simpa using hne)⟩
    rcases lt_trichotomy (key r) k with hlt | heq | hgt
    · rw [if_pos hlt, ih hsorted.2 (fun x hx => hread x (List.mem_cons_of_mem r hx))]
      simp [hlt.ne, pure, Except.pure]
    · have hrest := (hgone heq.ge).2
      simp only [ne_eq, decide_not] at hrest
      simp [heq, hrest, pure, Except.pure]
    · obtain ⟨hnone, hrest⟩ := hgone hgt.le
      simp only [ne_eq, decide_not] at hrest
      simp [hgt.le, hgt.ne', hnone, hrest, pure, Except.pure]

/-- An index of addresses over the store of its records: these are the elements of a sorted index, each
at its own address, and the store has no others. -/
structure Holds (addr : ρ → Address) (store : Store ρ) (index : List Address) (idx : SortedIndex key) : Prop where
  index : index = idx.entries.map addr
  records : ∀ a r, store.lookup a = some r ↔ r ∈ idx ∧ addr r = a

variable {index : List Address} {idx : SortedIndex key}

theorem Holds.read (h : Holds addr store index idx) {r : ρ} (hr : r ∈ idx) :
    RecordIndex.read store (addr r) = .ok r :=
  read_eq_ok.mpr ((h.records _ r).mpr ⟨hr, rfl⟩)

/-- The store of just these records. -/
def storeOf (addr : ρ → Address) (l : List ρ) : Store ρ := (l.map (fun r => (⟨addr r, r⟩ : Sigma _))).toAList

theorem holds_storeOf (h : (idx.entries.map addr).Nodup) :
    Holds addr (storeOf addr idx.entries) (idx.entries.map addr) idx where
  index := rfl
  records a r := by
    have hkeys : (idx.entries.map (fun r => (⟨addr r, r⟩ : Sigma (fun _ : Address => ρ)))).NodupKeys := by
      rw [List.NodupKeys, List.keys, List.map_map]
      exact h
    rw [storeOf, AList.lookup_to_alist, ← Option.mem_def, List.mem_dlookup_iff hkeys, List.mem_map]
    constructor
    · rintro ⟨x, hx, he⟩
      cases he
      exact ⟨hx, rfl⟩
    · rintro ⟨hr, rfl⟩
      exact ⟨r, hr, rfl⟩

theorem Holds.addr_inj (h : Holds addr store index idx) {x y : ρ} (hx : x ∈ idx) (hy : y ∈ idx)
    (he : addr x = addr y) : x = y := by
  have h1 := (h.records (addr y) x).mpr ⟨hx, he⟩
  have h2 := (h.records (addr y) y).mpr ⟨hy, rfl⟩
  exact Option.some.inj (h1.symm.trans h2)

theorem Holds.search (h : Holds addr store index idx) (k : κ) :
    search key store k index = .ok ((idx.lookup k).map addr, (idx.successor k).map addr) := by
  rw [h.index, search_map idx.sorted (fun r hr => h.read hr), SortedIndex.successor, SortedIndex.lookup]
  cases idx.entries.find? (fun r => key r = k) with
  | some r => rfl
  | none => rfl

theorem takeWhile_map {n : ρ} (hsorted : l.Pairwise (fun x y => key x < key y))
    (hinj : ∀ x ∈ l, addr x = addr n → x = n) (hn : n ∈ l) :
    (l.map addr).takeWhile (fun b => b ≠ addr n) = (l.filter (fun x => key x < key n)).map addr := by
  induction l with
  | nil => cases hn
  | cons x rest ih =>
    rw [List.pairwise_cons] at hsorted
    rw [List.map_cons]
    by_cases hx : addr x = addr n
    · obtain rfl := hinj x List.mem_cons_self hx
      have hnone : rest.filter (fun y => key y < key x) = [] :=
        List.filter_eq_nil_iff.mpr (fun y hy => by simp [(hsorted.1 y hy).le])
      simp [hnone]
    · have hmem : n ∈ rest := by
        cases List.mem_cons.mp hn with
        | inl he => exact absurd (congrArg addr he.symm) hx
        | inr hr => exact hr
      rw [List.takeWhile_cons_of_pos (by simpa using hx),
        ih hsorted.2 (fun y hy => hinj y (List.mem_cons_of_mem x hy)) hmem,
        List.filter_cons_of_pos (by simpa using hsorted.1 n hmem), List.map_cons]

theorem Holds.before (h : Holds addr store index idx) {n : ρ} (hn : n ∈ idx) :
    before (addr n) index = (idx.prev (key n)).map addr := by
  rw [RecordIndex.before, h.index, takeWhile_map idx.sorted (fun x hx he => h.addr_inj hx hn he) hn,
    List.getLast?_map]
  rfl

theorem Holds.last (h : Holds addr store index idx) : index.getLast? = idx.last.map addr := by
  rw [h.index, List.getLast?_map]
  rfl

theorem Holds.readAny (h : Holds addr store index idx) {o : Option ρ} (ho : ∀ r, o = some r → r ∈ idx) :
    RecordIndex.readAny store (o.map addr) = .ok o := by
  cases o with
  | none => rfl
  | some r =>
    rw [Option.map_some, RecordIndex.readAny, h.read (ho r rfl)]
    rfl

/-- The test against both neighbors, with the successor that a search reported. -/
theorem Holds.blocked {γ τ : Type} [LinearOrder γ] [LinearOrder τ] {grp : ρ → γ} {lo hi : ρ → τ}
    {idx : SortedIndex (IntervalIndex.key grp lo)} (h : Holds addr store index idx) {g : γ} {s e : τ} {nextElt : Option ρ}
    (hnext : ∀ n, nextElt = some n → n ∈ idx) :
    RecordIndex.blocked grp lo hi store index g s e (nextElt.map addr) =
      .ok (IntervalIndex.blocked hi idx g s e nextElt) := by
  have hprev : (match nextElt.map addr with
      | some a => RecordIndex.before a index
      | none => index.getLast?) = (IntervalIndex.before idx nextElt).map addr := by
    cases nextElt with
    | none => exact h.last
    | some n => exact h.before (hnext n rfl)
  have hmem : ∀ r, IntervalIndex.before idx nextElt = some r → r ∈ idx := by
    intro r hr
    cases nextElt with
    | none => exact List.mem_of_getLast? hr
    | some n => exact (SortedIndex.prev_eq_some hr).1
  simp only [RecordIndex.blocked, h.readAny hnext, hprev, h.readAny hmem, IntervalIndex.blocked, bind, Except.bind]
  cases IntervalIndex.reachesNext grp lo g e nextElt with
  | true => rfl
  | false => rfl

/-- A record at a new address is filed under a new key. -/
theorem Holds.insert (h : Holds addr store index idx) {x : ρ} (hkey : idx.lookup (key x) = none)
    (hnew : ∀ r ∈ idx, addr r ≠ addr x) :
    ∃ index', insertAddress key (store.insert (addr x) x) (addr x) (key x) index = .ok index' ∧
      Holds addr (store.insert (addr x) x) index' (idx.insert x hkey) := by
  have hread : ∀ r ∈ idx.entries, RecordIndex.read (store.insert (addr x) x) (addr r) = .ok r := by
    intro r hr
    rw [read_eq_ok, AList.lookup_insert_ne (hnew r hr)]
    exact (h.records _ r).mpr ⟨hr, rfl⟩
  refine ⟨(idx.insert x hkey).entries.map addr, ?_, rfl, ?_⟩
  · rw [h.index, SortedIndex.entries_insert]
    exact insertAddress_map hread (SortedIndex.lookup_eq_none.mp hkey)
  · intro a r
    rw [SortedIndex.mem_insert]
    by_cases ha : a = addr x
    · rw [ha, AList.lookup_insert, Option.some.injEq]
      constructor
      · rintro rfl
        exact ⟨Or.inl rfl, rfl⟩
      · rintro ⟨rfl | hr, he⟩
        · rfl
        · exact absurd he (hnew r hr)
    · rw [AList.lookup_insert_ne ha, h.records]
      constructor
      · rintro ⟨hr, he⟩
        exact ⟨Or.inr hr, he⟩
      · rintro ⟨rfl | hr, he⟩
        · exact absurd he.symm ha
        · exact ⟨hr, he⟩

/-- A record that is taken out of the index and released. -/
theorem Holds.erase (h : Holds addr store index idx) {x : ρ} (hx : x ∈ idx) :
    ∃ index', takeOut key store (key x) index = .ok (some (addr x), index') ∧
      Holds addr (store.erase (addr x)) index' (idx.erase (key x)) := by
  have hfind : idx.entries.find? (fun r => key r = key x) = some x := SortedIndex.lookup_eq_some.mpr ⟨hx, rfl⟩
  refine ⟨(idx.erase (key x)).entries.map addr, ?_, rfl, ?_⟩
  · rw [h.index, takeOut_map idx.sorted (fun r hr => h.read hr), hfind]
    rfl
  · intro a r
    rw [SortedIndex.mem_erase]
    by_cases ha : a = addr x
    · rw [ha, AList.lookup_erase]
      constructor
      · intro he
        cases he
      · rintro ⟨⟨hr, hne⟩, he⟩
        exact absurd (congrArg key (h.addr_inj hr hx he)) hne
    · rw [AList.lookup_erase_ne ha, h.records]
      constructor
      · rintro ⟨hr, he⟩
        exact ⟨⟨hr, fun hk => ha (he.symm.trans (congrArg addr (SortedIndex.key_inj hr hx hk)))⟩, he⟩
      · rintro ⟨⟨hr, -⟩, he⟩
        exact ⟨hr, he⟩

end RecordIndex
