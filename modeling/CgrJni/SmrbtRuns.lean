import CgrJni.SmrbtInsert
import CgrJni.SmrbtDelete
import CgrJni.SmrbtSearch
import CgrJni.SortedIndex

/-!
Red-black trees over any sequence of insertions and deletions, compared with the
ordered index of the elements put in and not taken out.
-/

namespace SmrbtRuns

open RedBlack RedBlack.Tree LinkedTree Smrbt SmrbtMoves SmrbtOrder SmrbtSearch

/-- The parent and child links of the nodes agree, and those of the root with the tree object. -/
structure Linked (rbt : SmRbt) : Prop where
  root : rbt.root = 0 ∨ (rbt.root ∈ rbt.allocated ∧ (rbt.nodes rbt.root).parent = 0)
  down : ∀ a ∈ rbt.allocated, ∀ d, (rbt.nodes a).child d ≠ 0 →
    (rbt.nodes a).child d ∈ rbt.allocated ∧ (rbt.nodes ((rbt.nodes a).child d)).parent = a
  up : ∀ a ∈ rbt.allocated, ((rbt.nodes a).parent = 0 ∧ a = rbt.root) ∨
    ((rbt.nodes a).parent ∈ rbt.allocated ∧ ∃! d, (rbt.nodes (rbt.nodes a).parent).child d = a)

/-- A round of a caller's loop over the elements, from one end to the other. -/
def visitRound (rbt : SmRbt) (direction : Dir) (s : PsmAddress × List PsmAddress) :
    (PsmAddress × List PsmAddress) ⊕ Option (List PsmAddress) :=
  if s.1 = 0 then .inr (some s.2)
  else
    match smRbtTraverse rbt s.1 direction with
    | none => .inr none
    | some next => .inl (next, s.2 ++ [smRbtData rbt s.1])

def enumerate (rbt : SmRbt) (direction : Dir) : Option (List PsmAddress) :=
  (if direction = .right then smRbtFirst rbt else smRbtLast rbt).bind fun start =>
    (Runs.loop (visitRound rbt direction) (rbt.length + 1) (start, [])).join

/-- A node stands for an element, and zero for none. -/
def Denotes (rbt : SmRbt) (node : PsmAddress) : Option PsmAddress → Prop
  | none => node = 0
  | some x => node ≠ 0 ∧ node ∈ rbt.allocated ∧ smRbtData rbt node = x

variable {κ : Type} [LinearOrder κ] {compare : PsmAddress → κ → Int} {key : PsmAddress → κ}

/-- The states after any sequence of insertions and deletions from an empty tree, with the elements
that are then in the set. The allocator hands out an address that is not in use. -/
inductive Reaches (compare : PsmAddress → κ → Int) (key : PsmAddress → κ) : SmRbt → SortedIndex key → Prop
  | create : Reaches compare key smRbtCreate SortedIndex.empty
  | insert {rbt rbt' : SmRbt} {idx : SortedIndex key} {newNode data node : PsmAddress}
      (habsent : idx.lookup (key data) = none) : Reaches compare key rbt idx → newNode ≠ 0 →
      newNode ∉ rbt.allocated → smRbtInsert compare (key data) rbt newNode data = some (rbt', node) →
      Reaches compare key rbt' (idx.insert data habsent)
  | delete {rbt rbt' : SmRbt} {idx : SortedIndex key} {k : κ} {deleted : Option PsmAddress} :
      Reaches compare key rbt idx → smRbtDelete compare k rbt = some (rbt', deleted) →
      Reaches compare key rbt' (idx.erase k)

/-- What a caller sees of the tree is what the index says. -/
structure Implements (compare : PsmAddress → κ → Int) (rbt : SmRbt) (idx : SortedIndex key) : Prop where
  links : Linked rbt
  length : rbt.length = idx.entries.length
  ascending : enumerate rbt .right = some idx.entries
  descending : enumerate rbt .left = some idx.entries.reverse
  search : ∀ k, ∃ node successor, smRbtSearch compare k rbt = some (node, successor) ∧
    Denotes rbt node (idx.lookup k) ∧ Denotes rbt successor (idx.successor k)
  insert : ∀ newNode data, newNode ≠ 0 → newNode ∉ rbt.allocated → idx.lookup (key data) = none →
    ∃ rbt', smRbtInsert compare (key data) rbt newNode data = some (rbt', newNode)
  delete : ∀ k, ∃ rbt', smRbtDelete compare k rbt = some (rbt', idx.lookup k)

variable {rbt : SmRbt} {idx : SortedIndex key} {t : RbTree} {d : Dir}

/-- The tree in memory that holds the elements of the index. -/
structure Represents (rbt : SmRbt) (idx : SortedIndex key) (t : RbTree) : Prop extends Sound key rbt t where
  entries : (t.walk .right).map Prod.snd = idx.entries

theorem absent_iff (h : Represents rbt idx t) {k : κ} :
    idx.lookup k = none ↔ ∀ a ∈ t.walk .right, key a.2 ≠ k := by
  rw [SortedIndex.lookup_eq_none]
  simp only [← SortedIndex.mem_entries, ← h.entries, List.forall_mem_map]

theorem insert_represents (hc : Compares compare key) (h : Represents rbt idx t) {newNode data : PsmAddress}
    (hnew : newNode ≠ 0) (hfresh : newNode ∉ rbt.allocated) (habsent : idx.lookup (key data) = none) :
    ∃ rbt' t', smRbtInsert compare (key data) rbt newNode data = some (rbt', newNode) ∧
      Represents rbt' (idx.insert data habsent) t' := by
  obtain ⟨rbt', t', hrun, hsound, A, B, hE, hwalk, hA, hB⟩ :=
    SmrbtInsert.smRbtInsert_spec hc h.toSound hnew hfresh ((absent_iff h).mp habsent)
  refine ⟨rbt', t', hrun, hsound, ?_⟩
  have hsplit : idx.entries = A.map Prod.snd ++ B.map Prod.snd := by rw [← h.entries, hE, List.map_append]
  rw [hwalk, List.map_append, List.map_cons, SortedIndex.entries_insert_of_split habsent hsplit]
  · exact List.forall_mem_map.mpr hA
  · exact List.forall_mem_map.mpr hB

theorem delete_represents (hc : Compares compare key) (h : Represents rbt idx t) (k : κ) :
    ∃ rbt' t', smRbtDelete compare k rbt = some (rbt', idx.lookup k) ∧ Represents rbt' (idx.erase k) t' := by
  obtain ⟨rbt', t', hrun, hsound, hwalk⟩ := SmrbtDelete.smRbtDelete_spec hc h.toSound k
  rw [h.entries] at hrun hwalk
  exact ⟨rbt', t', hrun, hsound, hwalk⟩

theorem reaches_represents (hc : Compares compare key) (h : Reaches compare key rbt idx) :
    ∃ t, Represents rbt idx t := by
  induction h with
  | create => exact ⟨nil, sound_create, rfl⟩
  | insert habsent _ hnew hfresh hrun ih =>
    obtain ⟨t, ht⟩ := ih
    obtain ⟨rbt', t', hrun', h'⟩ := insert_represents hc ht hnew hfresh habsent
    rw [hrun', Option.some.injEq, Prod.mk.injEq] at hrun
    exact ⟨t', hrun.1 ▸ h'⟩
  | @delete rbt rbt' idx k deleted _ hrun ih =>
    obtain ⟨t, ht⟩ := ih
    obtain ⟨rbt', t', hrun', h'⟩ := delete_represents hc ht k
    rw [hrun', Option.some.injEq, Prod.mk.injEq] at hrun
    exact ⟨t', hrun.1 ▸ h'⟩

/-- A node of the tree, at its place. -/
theorem place_of_allocated (h : Sound key rbt t) {a : PsmAddress} (ha : a ∈ rbt.allocated) (d : Dir) :
    ∃ fs red x near far, t = plug fs (branch d a red x near far) ∧ a ≠ 0 ∧
      rbt.nodes a = ⟨top fs, links d (root near) (root far), x, red⟩ ∧ Repr rbt.nodes a near := by
  rw [h.allocated.mem_iff] at ha
  obtain ⟨⟨b, x⟩, hmem, rfl⟩ := List.mem_map.mp ha
  obtain ⟨fs, red, near, far, hplug⟩ := exists_place d hmem
  have hrepr := h.repr
  rw [hplug, repr_plug, repr_branch] at hrepr
  exact ⟨fs, red, x, near, far, hplug, hrepr.2.1, hrepr.2.2.1, hrepr.2.2.2.1⟩

theorem sound_linked (h : Sound key rbt t) : Linked rbt := by
  constructor
  · by_cases ht : t = nil
    · exact Or.inl (h.nil_iff.mpr ht)
    · obtain ⟨a, red, x, near, far, rfl⟩ := exists_branch .left ht
      obtain ⟨-, hcell, -⟩ := repr_branch.mp h.repr
      rw [h.root, root_branch, hcell, h.allocated.mem_iff]
      exact Or.inr ⟨by simp, rfl⟩
  · intro a ha d hchild
    obtain ⟨fs, red, x, near, far, hplug, -, hcell, hnear⟩ := place_of_allocated h ha d
    have hroot : (rbt.nodes a).child d = root near := by simp [hcell]
    rw [hroot] at hchild ⊢
    have hne : near ≠ nil := fun hn => hchild (by rw [hn, root_nil])
    rw [h.allocated.mem_iff, hplug, (addrs_plug_perm _ _).mem_iff]
    obtain ⟨b, c, y, near', far', rfl⟩ := exists_branch .left hne
    obtain ⟨-, hcell', -⟩ := repr_branch.mp hnear
    rw [root_branch, hcell']
    exact ⟨by simp, rfl⟩
  · intro a ha
    obtain ⟨fs, red, x, near, far, hplug, ha0, hcell, -⟩ := place_of_allocated h ha .left
    rw [hcell]
    cases fs with
    | nil =>
      left
      rw [h.root, hplug, plug_nil, root_branch]
      exact ⟨rfl, rfl⟩
    | cons f r =>
      right
      have hrepr := h.repr
      have hnodup := h.nodup
      rw [hplug] at hrepr hnodup
      obtain ⟨-, hfcell, -, -⟩ := (repr_plug.mp hrepr).1
      rw [root_branch] at hfcell
      rw [h.allocated.mem_iff, hplug, (addrs_plug_perm _ _).mem_iff, top_cons]
      refine ⟨by simp, f.dir, by simp [hfcell], ?_⟩
      intro e he
      by_contra hne
      rw [hfcell, Dir.eq_other_of_ne hne] at he
      simp only [links_other] at he
      have hsib : f.sib ≠ nil := by
        intro hn
        rw [hn, root_nil] at he
        exact ha0 he.symm
      have hnd := (addrs_plug_perm (f :: r) (branch .left a red x near far)).nodup_iff.mp hnodup
      have hmem : root f.sib ∈ ctxAddrs (f :: r) := by simp [root_mem hsib]
      rw [he] at hmem
      exact (List.nodup_append'.mp hnd).2.2 hmem (by simp)

theorem visit_loop (h : Sound key rbt t) {A B : List (Nat × PsmAddress)} (hwalk : t.walk d = A ++ B)
    (acc : List PsmAddress) (fuel : Nat) (hfuel : B.length < fuel) :
    Runs.loop (visitRound rbt d) fuel (first B, acc) = some (some (acc ++ B.map Prod.snd)) := by
  induction B generalizing A acc fuel with
  | nil =>
    obtain ⟨fuel, rfl⟩ := Nat.exists_eq_add_of_lt hfuel
    exact Runs.loop_inr (by simp [visitRound])
  | cons b B ih =>
    obtain ⟨a, x⟩ := b
    rw [List.length_cons] at hfuel
    obtain ⟨fuel, rfl⟩ : ∃ n, fuel = n + 1 := ⟨fuel - 1, by omega⟩
    have hmem : (a, x) ∈ t.walk d := by simp [hwalk]
    have ha : a ≠ 0 := h.repr.ne_zero ((addrs_perm d t).mem_iff.mpr (List.mem_map.mpr ⟨(a, x), hmem, rfl⟩))
    have hdata : smRbtData rbt a = x := h.repr.data hmem
    have hround : visitRound rbt d (first ((a, x) :: B), acc) = .inl (first B, acc ++ [x]) := by
      simp [visitRound, ha, smRbtTraverse_spec h hwalk, hdata]
    rw [Runs.loop_inl hround, ih (A := A ++ [(a, x)]) (by simp [hwalk]) (acc ++ [x]) fuel (by omega)]
    simp

theorem enumerate_spec (h : Sound key rbt t) : enumerate rbt d = some ((t.walk d).map Prod.snd) := by
  have hstart : (if d = .right then smRbtFirst rbt else smRbtLast rbt) = some (first (t.walk d)) := by
    cases d
    · exact smRbtLast_spec h
    · exact smRbtFirst_spec h
  have hlen : (t.walk d).length < rbt.length + 1 := by
    rw [h.length, (walk_perm d .right t).length_eq]
    exact Nat.lt_succ_self _
  rw [enumerate, hstart, Option.bind_some, visit_loop h (A := []) rfl [] (rbt.length + 1) hlen]
  simp

theorem denotes_of_mem (h : Sound key rbt t) {a x : PsmAddress} (hmem : (a, x) ∈ t.walk .right) :
    Denotes rbt a (some x) := by
  have ha : a ∈ t.addrs := List.mem_map.mpr ⟨(a, x), hmem, rfl⟩
  exact ⟨h.repr.ne_zero ha, h.allocated.mem_iff.mpr ha, h.repr.data hmem⟩

theorem search_denotes (hc : Compares compare key) (h : Represents rbt idx t) (k : κ) :
    ∃ node successor, smRbtSearch compare k rbt = some (node, successor) ∧ Denotes rbt node (idx.lookup k) ∧
      Denotes rbt successor (idx.successor k) := by
  obtain ⟨a, x, hrun, hmem, hx⟩ | ⟨A, B, hrun, hwalk, hA, hB⟩ := smRbtSearch_spec hc h.toSound k
  · have hlookup : idx.lookup k = some x := by
      rw [SortedIndex.lookup_eq_some, ← SortedIndex.mem_entries, ← h.entries]
      exact ⟨List.mem_map.mpr ⟨(a, x), hmem, rfl⟩, hx⟩
    refine ⟨a, 0, hrun, ?_, ?_⟩
    · rw [hlookup]
      exact denotes_of_mem h.toSound hmem
    · rw [SortedIndex.successor, hlookup]
      rfl
  · have hlookup : idx.lookup k = none := by
      rw [absent_iff h, hwalk]
      intro a ha
      cases List.mem_append.mp ha with
      | inl ha => exact (hA a ha).ne
      | inr ha => exact (hB a ha).ne'
    have habove : idx.above k = B.map Prod.snd := by
      have hnone : (A.map Prod.snd).filter (fun x => k < key x) = [] := by
        rw [List.filter_eq_nil_iff, List.forall_mem_map]
        intro a ha
        simp [(hA a ha).le]
      have hall : (B.map Prod.snd).filter (fun x => k < key x) = B.map Prod.snd := by
        rw [List.filter_eq_self, List.forall_mem_map]
        intro b hb
        simp [hB b hb]
      rw [SortedIndex.above, ← h.entries, hwalk, List.map_append, List.filter_append, hnone, hall, List.nil_append]
    refine ⟨0, first B, hrun, by rw [hlookup]; rfl, ?_⟩
    rw [SortedIndex.successor_of_absent hlookup, SortedIndex.next, habove]
    cases B with
    | nil => rfl
    | cons b B => exact denotes_of_mem h.toSound (by simp [hwalk])

/-- There is always another address, so an admissible insertion can be made. -/
theorem reaches_insert (hc : Compares compare key) (h : Reaches compare key rbt idx) (data : PsmAddress)
    (habsent : idx.lookup (key data) = none) : ∃ rbt', Reaches compare key rbt' (idx.insert data habsent) := by
  obtain ⟨t, ht⟩ := reaches_represents hc h
  obtain ⟨newNode, hfresh⟩ := Infinite.exists_notMem_finset (insert 0 rbt.allocated.toFinset)
  rw [Finset.mem_insert, List.mem_toFinset, not_or] at hfresh
  obtain ⟨rbt', t', hrun, -⟩ := insert_represents hc ht hfresh.1 hfresh.2 habsent
  exact ⟨rbt', h.insert habsent hfresh.1 hfresh.2 hrun⟩

theorem reaches_delete (hc : Compares compare key) (h : Reaches compare key rbt idx) (k : κ) :
    ∃ rbt', Reaches compare key rbt' (idx.erase k) := by
  obtain ⟨t, ht⟩ := reaches_represents hc h
  obtain ⟨rbt', t', hrun, -⟩ := delete_represents hc ht k
  exact ⟨rbt', h.delete hrun⟩

/-- The difference of the keys, where the data are their own keys. -/
def difference (x k : PsmAddress) : Int := x - k

theorem difference_compares : Compares difference id where
  neg_iff _ _ := ⟨fun h => Int.ofNat_lt.mp (Int.lt_of_sub_neg h), fun h => Int.sub_neg_of_lt (Int.ofNat_lt.mpr h)⟩
  zero_iff _ _ := Int.sub_eq_zero.trans Int.ofNat_inj

/-- Three insertions and the deletion of the root. -/
theorem reaches_difference : ∃ (rbt : SmRbt) (idx : SortedIndex (id : Nat → Nat)),
    Reaches difference id rbt idx ∧ idx.entries = [20, 60] := by
  obtain ⟨_, h⟩ := reaches_insert difference_compares Reaches.create 40 (by decide)
  obtain ⟨_, h⟩ := reaches_insert difference_compares h 20 (by decide)
  obtain ⟨_, h⟩ := reaches_insert difference_compares h 60 (by decide)
  obtain ⟨rbt, h⟩ := reaches_delete difference_compares h 40
  exact ⟨rbt, _, h, by decide⟩

/-- After any sequence of insertions and deletions the tree is the sorted set of its elements: the
links agree, both traversals list them in order, a search finds an element or its successor, and
the next call ends as well. -/
theorem smRbt_implements (hc : Compares compare key) (h : Reaches compare key rbt idx) :
    Implements compare rbt idx := by
  obtain ⟨t, ht⟩ := reaches_represents hc h
  constructor
  · exact sound_linked ht.toSound
  · rw [ht.length, ← ht.entries, List.length_map]
  · rw [enumerate_spec ht.toSound, ht.entries]
  · have hreverse : t.walk .left = (t.walk .right).reverse := walk_other .right t
    rw [enumerate_spec ht.toSound, hreverse, List.map_reverse, ht.entries]
  · exact search_denotes hc ht
  · intro newNode data hnew hfresh habsent
    obtain ⟨rbt', t', hrun, -⟩ := insert_represents hc ht hnew hfresh habsent
    exact ⟨rbt', hrun⟩
  · intro k
    obtain ⟨rbt', t', hrun, -⟩ := delete_represents hc ht k
    exact ⟨rbt', hrun⟩

theorem smRbt_implements_difference : ∃ (rbt : SmRbt) (idx : SortedIndex (id : Nat → Nat)),
    idx.entries = [20, 60] ∧ Implements difference rbt idx := by
  obtain ⟨rbt, idx, h, hentries⟩ := reaches_difference
  exact ⟨rbt, idx, hentries, smRbt_implements difference_compares h⟩

/-- A way down from a node to a missing child, with the number of black nodes on it. -/
inductive BlackPath (nodes : Partition) : PsmAddress → Nat → Prop
  | missing : BlackPath nodes 0 0
  | step {node : PsmAddress} {n : Nat} (d : Dir) : node ≠ 0 → BlackPath nodes ((nodes node).child d) n →
      BlackPath nodes node (if (nodes node).isRed then n else n + 1)

/-- The conditions on the colours, and the test of them in the code. -/
structure Coloured (rbt : SmRbt) : Prop where
  root : nodeIsRed rbt.nodes rbt.root = false
  red : ∀ a ∈ rbt.allocated, (rbt.nodes a).isRed = true → ∀ d, nodeIsRed rbt.nodes ((rbt.nodes a).child d) = false
  paths : ∃ h, ∀ n, BlackPath rbt.nodes rbt.root n → n = h
  tested : treeBroken rbt = some false

variable {nodes : Partition} {p : PsmAddress} {n m : Nat}

theorem blackPath_height (h : Repr nodes p t) (hbal : Balanced n t) (hpath : BlackPath nodes (root t) m) : m = n := by
  induction hbal generalizing p m with
  | nil =>
    cases hpath with
    | missing => rfl
    | step d h0 => exact absurd rfl h0
  | @red n a x l r hl hr _ _ ihl ihr =>
    obtain ⟨ha, hcell, hlrepr, hrrepr⟩ := h
    obtain ⟨b, hb⟩ : ∃ b, b = root (node a true x l r) := ⟨_, rfl⟩
    rw [← hb] at hpath
    obtain rfl : b = a := hb
    cases hpath with
    | missing => exact absurd rfl ha
    | step d _ hd =>
      rw [hcell] at hd ⊢
      cases d
      · exact ihl hlrepr hd
      · exact ihr hrrepr hd
  | @black n a x l r hl hr ihl ihr =>
    obtain ⟨ha, hcell, hlrepr, hrrepr⟩ := h
    obtain ⟨b, hb⟩ : ∃ b, b = root (node a false x l r) := ⟨_, rfl⟩
    rw [← hb] at hpath
    obtain rfl : b = a := hb
    cases hpath with
    | missing => exact absurd rfl ha
    | step d _ hd =>
      rw [hcell] at hd ⊢
      cases d
      · exact congrArg (· + 1) (ihl hlrepr hd)
      · exact congrArg (· + 1) (ihr hrrepr hd)

/-- The debugging code finds the height of a balanced tree, counting the missing children as well. -/
theorem subtreeBlackHeight_spec (h : Repr nodes p t) (hbal : Balanced n t) (fuel : Nat)
    (hfuel : (t.walk .right).length < fuel) : subtreeBlackHeight nodes fuel (root t) = some (n + 1) := by
  induction hbal generalizing p fuel with
  | nil =>
    obtain ⟨fuel, rfl⟩ := Nat.exists_eq_add_of_lt hfuel
    simp [subtreeBlackHeight]
  | @red n a x l r hl hr hlred hrred ihl ihr =>
    obtain ⟨ha, hcell, hlrepr, hrrepr⟩ := h
    have hlen : ((node a true x l r).walk .right).length = (l.walk .right).length + (r.walk .right).length + 1 :=
      length_branch (d := .left) .right
    obtain ⟨fuel, rfl⟩ : ∃ n, fuel = n + 1 := ⟨fuel - 1, by omega⟩
    have hleft := ihl hlrepr fuel (by omega)
    have hright := ihr hrrepr fuel (by omega)
    have hl' := (nodeIsRed_root hlrepr).trans hlred
    have hr' := (nodeIsRed_root hrrepr).trans hrred
    have hroot : root (node a true x l r) = a := rfl
    rw [hroot]
    simp [subtreeBlackHeight, ha, hcell, links, hl', hr', hleft, hright]
  | @black n a x l r hl hr ihl ihr =>
    obtain ⟨ha, hcell, hlrepr, hrrepr⟩ := h
    have hlen : ((node a false x l r).walk .right).length = (l.walk .right).length + (r.walk .right).length + 1 :=
      length_branch (d := .left) .right
    obtain ⟨fuel, rfl⟩ : ∃ n, fuel = n + 1 := ⟨fuel - 1, by omega⟩
    have hleft := ihl hlrepr fuel (by omega)
    have hright := ihr hrrepr fuel (by omega)
    have hroot : root (node a false x l r) = a := rfl
    rw [hroot]
    simp [subtreeBlackHeight, ha, hcell, links, hleft, hright]

theorem sound_coloured (h : Sound key rbt t) : Coloured rbt := by
  obtain ⟨n, hn⟩ := h.balanced
  constructor
  · rw [h.root, nodeIsRed_root h.repr]
    exact h.black
  · intro a ha hred d
    obtain ⟨fs, red, x, near, far, hplug, -, hcell, hnear⟩ := place_of_allocated h ha d
    have hroot : (rbt.nodes a).child d = root near := by simp [hcell]
    have hred' : red = true := by rw [hcell] at hred; exact hred
    obtain ⟨m, hm, -⟩ := exists_balanced_plug.mp ⟨n, hplug ▸ hn⟩
    rw [hred', balanced_red] at hm
    rw [hroot, nodeIsRed_root hnear]
    exact hm.1.2
  · refine ⟨n, fun m hpath => ?_⟩
    rw [h.root] at hpath
    exact blackPath_height h.repr hn hpath
  · rw [treeBroken, h.root, subtreeBlackHeight_spec h.repr hn _ (by rw [h.length]; exact Nat.lt_succ_self _)]
    simp

/-- After any sequence of insertions and deletions the tree is balanced, and what the next deletion
unlinks is a leaf. -/
theorem smRbt_balanced (hc : Compares compare key) (h : Reaches compare key rbt idx) :
    Coloured rbt ∧ ∀ k, ∃ s, deletePass compare k rbt = some s ∧
      (s.target ≠ 0 → s.node ≠ 0 ∧ ∀ d, (s.nodes s.node).child d = 0) := by
  obtain ⟨t, ht⟩ := reaches_represents hc h
  exact ⟨sound_coloured ht.toSound, SmrbtDelete.unlinked_leaf hc ht.toSound⟩

theorem smRbt_balanced_difference : ∃ (rbt : SmRbt) (idx : SortedIndex (id : Nat → Nat)),
    idx.entries = [20, 60] ∧ Coloured rbt ∧ ∀ k, ∃ s, deletePass difference k rbt = some s ∧
      (s.target ≠ 0 → s.node ≠ 0 ∧ ∀ d, (s.nodes s.node).child d = 0) := by
  obtain ⟨rbt, idx, h, hentries⟩ := reaches_difference
  exact ⟨rbt, idx, hentries, smRbt_balanced difference_compares h⟩

end SmrbtRuns
