import CgrJni.SmrbtMoves

/-!
The way down for a key: the side taken at each node, the place reached, and how
many nodes there are still on the way.
-/

namespace SmrbtOrder

open RedBlack RedBlack.Tree LinkedTree Smrbt SmrbtMoves

abbrev RbTree := Tree Nat PsmAddress
abbrev Path := List (Frame Nat PsmAddress)

variable {κ : Type} {compare : PsmAddress → κ → Int}

/-- How many nodes are met on the way down from the root of a subtree. -/
def wayDown (compare : PsmAddress → κ → Int) (k : κ) : RbTree → Nat
  | nil => 0
  | node _ _ x l r =>
    match branchTo compare k x with
    | .left => wayDown compare k l + 1
    | .right => wayDown compare k r + 1

@[simp] theorem wayDown_nil (k : κ) : wayDown compare k nil = 0 := rfl

theorem wayDown_branch {k : κ} {d : Dir} {a : Nat} {r : Bool} {x : PsmAddress} {near far : RbTree}
    (h : branchTo compare k x = d) :
    wayDown compare k (branch d a r x near far) = wayDown compare k near + 1 := by
  cases d <;> simp [branch, wayDown, h]

/-- A node, seen from the side that a search takes there. -/
theorem exists_branchTo (compare : PsmAddress → κ → Int) (k : κ) {t : RbTree} (h : t ≠ nil) :
    ∃ a red x near far, t = branch (branchTo compare k x) a red x near far := by
  cases t with
  | nil => exact absurd rfl h
  | node a red x l r =>
    cases hd : branchTo compare k x with
    | left => exact ⟨a, red, x, l, r, by rw [hd]; rfl⟩
    | right => exact ⟨a, red, x, r, l, by rw [hd]; rfl⟩

@[simp] theorem wayDown_paint {k : κ} {b : Bool} {t : RbTree} :
    wayDown compare k (t.paint b) = wayDown compare k t := by cases t <;> rfl

theorem wayDown_le (compare : PsmAddress → κ → Int) (k : κ) (t : RbTree) : wayDown compare k t ≤ (t.walk .right).length := by
  induction t with
  | nil => simp
  | node a r x l far ihl ihr =>
    have hlen : ((node a r x l far).walk .right).length = (l.walk .right).length + ((far.walk .right).length + 1) := by
      simp [walk]
    rw [hlen, wayDown]
    split <;> omega

/-- The compare function realises the order of the keys. -/
structure Compares {κ : Type} [LinearOrder κ] (compare : PsmAddress → κ → Int) (key : PsmAddress → κ) : Prop where
  neg_iff : ∀ x k, compare x k < 0 ↔ key x < k
  zero_iff : ∀ x k, compare x k = 0 ↔ key x = k

variable [LinearOrder κ] {key : PsmAddress → κ}

def Ascending (key : PsmAddress → κ) (l : List (Nat × PsmAddress)) : Prop :=
  l.Pairwise (fun a b => key a.2 < key b.2)

theorem ascending_iff {l : List (Nat × PsmAddress)} :
    Ascending key l ↔ (l.map Prod.snd).Pairwise (fun a b => key a < key b) := by
  rw [Ascending, List.pairwise_map]

/-- The place of a key: what lies before it has lesser keys, and nothing after it has. -/
structure Located (key : PsmAddress → κ) (k : κ) (fs : Path) : Prop where
  before : ∀ a ∈ rest .left fs, key a.2 < k
  after : ∀ a ∈ rest .right fs, k ≤ key a.2

theorem branchTo_eq_right (hc : Compares compare key) {k : κ} {x : PsmAddress} :
    branchTo compare k x = .right ↔ key x < k := by
  rw [branchTo, ← hc.neg_iff]
  split <;> simp_all

theorem branchTo_eq_left (hc : Compares compare key) {k : κ} {x : PsmAddress} :
    branchTo compare k x = .left ↔ k ≤ key x := by
  rw [branchTo, ← not_lt, ← hc.neg_iff]
  split <;> simp_all

theorem located_nil (k : κ) : Located key k [] := by constructor <;> simp

theorem rest_cons_left {f : Frame Nat PsmAddress} {fs : Path} (h : f.dir = .right) :
    rest .left (f :: fs) = (f.addr, f.data) :: f.sib.walk .left ++ rest .left fs := by simp [rest, h]

theorem rest_cons_right {f : Frame Nat PsmAddress} {fs : Path} (h : f.dir = .left) :
    rest .right (f :: fs) = (f.addr, f.data) :: f.sib.walk .right ++ rest .right fs := by simp [rest, h]

theorem Located.tail {k : κ} {f : Frame Nat PsmAddress} {fs : Path} (h : Located key k (f :: fs)) :
    Located key k fs := by
  constructor
  · intro a ha
    apply h.before a
    by_cases hd : f.dir = .left <;> simp [rest, hd, ha]
  · intro a ha
    apply h.after a
    by_cases hd : f.dir = .right <;> simp [rest, hd, ha]

theorem ascending_place {fs : Path} {t : RbTree} (h : Ascending key ((plug fs t).walk .right)) :
    Ascending key (t.walk .right) := by
  rw [walk_plug] at h
  exact (List.pairwise_append.mp (List.pairwise_append.mp h).1).2.1

theorem key_lt_far {a : Nat} {r : Bool} {x : PsmAddress} {near far : RbTree} {b : Nat × PsmAddress}
    (h : Ascending key ((branch .left a r x near far).walk .right)) (hb : b ∈ far.walk .right) : key x < key b.2 := by
  rw [branch_swap, Dir.other_left, walk_branch] at h
  exact (List.pairwise_cons.mp (List.pairwise_append.mp h).2.1).1 b hb

theorem far_lt_key {a : Nat} {r : Bool} {x : PsmAddress} {near far : RbTree} {b : Nat × PsmAddress}
    (h : Ascending key ((branch .right a r x near far).walk .right)) (hb : b ∈ far.walk .right) : key b.2 < key x := by
  rw [walk_branch] at h
  exact (List.pairwise_append.mp h).2.2 b hb (a, x) (by simp)

/-- The elements at a place come before those that follow it. -/
theorem key_lt_rest {fs : Path} {t : RbTree} (h : Ascending key ((plug fs t).walk .right)) {a b : Nat × PsmAddress}
    (ha : a ∈ t.walk .right) (hb : b ∈ rest .right fs) : key a.2 < key b.2 := by
  rw [walk_plug] at h
  exact (List.pairwise_append.mp h).2.2 a (List.mem_append_right _ ha) b hb

/-- The side taken at a frame is the one that the search takes at its data. -/
theorem Located.dir (hc : Compares compare key) {k : κ} {f : Frame Nat PsmAddress} {fs : Path}
    (h : Located key k (f :: fs)) : branchTo compare k f.data = f.dir := by
  cases hd : f.dir with
  | left =>
    rw [branchTo_eq_left hc]
    apply h.after (f.addr, f.data)
    simp [rest_cons_right hd]
  | right =>
    rw [branchTo_eq_right hc]
    apply h.before (f.addr, f.data)
    simp [rest_cons_left hd]

/-- One step further down on the side that the search takes. -/
theorem Located.descend (hc : Compares compare key) {k : κ} {fs : Path} {a : Nat} {r : Bool} {x : PsmAddress}
    {near far : RbTree} (h : Located key k fs)
    (hsorted : Ascending key ((plug fs (branch (branchTo compare k x) a r x near far)).walk .right)) :
    Located key k (⟨branchTo compare k x, a, r, x, far⟩ :: fs) := by
  have hplace := ascending_place hsorted
  cases hd : branchTo compare k x with
  | right =>
    rw [hd] at hplace
    have hx := (branchTo_eq_right hc).mp hd
    constructor
    · rw [rest_cons_left rfl]
      intro b hb
      simp only [List.mem_append, List.mem_cons] at hb
      obtain (rfl | hb) | hb := hb
      · exact hx
      · exact (far_lt_key hplace ((walk_perm .left .right far).mem_iff.mp hb)).trans hx
      · exact h.before b hb
    · intro b hb
      exact h.after b (by simpa [rest] using hb)
  | left =>
    rw [hd] at hplace
    have hx := (branchTo_eq_left hc).mp hd
    constructor
    · intro b hb
      exact h.before b (by simpa [rest] using hb)
    · rw [rest_cons_right rfl]
      intro b hb
      simp only [List.mem_append, List.mem_cons] at hb
      obtain (rfl | hb) | hb := hb
      · exact hx
      · exact hx.trans (key_lt_far hplace hb).le
      · exact h.after b hb

theorem ascending_insert {A B : List (Nat × PsmAddress)} {newNode data : PsmAddress} (h : Ascending key (A ++ B))
    (hA : ∀ a ∈ A, key a.2 < key data) (hB : ∀ b ∈ B, key data < key b.2) :
    Ascending key (A ++ (newNode, data) :: B) := by
  obtain ⟨hasc, hbsc, hAB⟩ := List.pairwise_append.mp h
  refine List.pairwise_append.mpr ⟨hasc, List.pairwise_cons.mpr ⟨hB, hbsc⟩, ?_⟩
  intro a ha b hb
  cases List.mem_cons.mp hb with
  | inl he =>
    rw [he]
    exact hA a ha
  | inr hb => exact hAB a ha b hb

/-- A tree object between calls: its nodes hold a balanced tree with a black root, whose elements
are in ascending order of their keys, and nothing else is allocated for it. -/
structure Sound (key : PsmAddress → κ) (rbt : SmRbt) (t : RbTree) : Prop where
  repr : Repr rbt.nodes 0 t
  nodup : t.addrs.Nodup
  root : rbt.root = root t
  ascending : Ascending key (t.walk .right)
  balanced : ∃ n, Balanced n t
  black : t.isRed = false
  length : rbt.length = (t.walk .right).length
  allocated : rbt.allocated.Perm t.addrs

variable {rbt : SmRbt} {t : RbTree}

theorem Sound.holds (h : Sound key rbt t) : Holds (dummyRoot rbt) [] t where
  ctx := trivial
  tree := by
    apply h.repr.congr
    intro a ha
    simp [dummyRoot, h.repr.ne_zero ha]
  ctx_nodup := List.nodup_nil
  tree_nodup := h.nodup
  apart := by simp
  base := by simp [dummyRoot, h.root]

/-- What is left at the end of a pass is a tree object again. -/
theorem sound_finish {nodes : Partition} (h : Holds nodes [] t) (hbal : ∃ n, Balanced n t)
    (hasc : Ascending key (t.walk .right)) {length : Nat} {allocated : List PsmAddress}
    (hlen : length = (t.walk .right).length) (halloc : allocated.Perm t.addrs) :
    Sound key (finish nodes length allocated) (t.paint false) := by
  have hroot : (nodes 0).child .right = root t := by
    rw [h.base]
    exact links_self
  have hnodes : Holds (finish nodes length allocated).nodes [] (t.paint false) := by
    simp only [finish, hroot]
    by_cases ht : t = nil
    · subst ht
      simpa using h
    · rw [if_neg (mt h.tree.root_eq_zero.mp ht)]
      exact paint_holds h ht false
  obtain ⟨n, hn⟩ := hbal
  refine ⟨hnodes.tree, hnodes.tree_nodup, ?_, ?_, hn.exists_paint_black, isRed_paint_black, ?_, ?_⟩
  · simp [finish, hroot]
  · rw [walk_paint]
    exact hasc
  · rw [walk_paint]
    exact hlen
  · rw [addrs_paint]
    exact halloc

theorem Sound.nil_iff (h : Sound key rbt t) : rbt.root = 0 ↔ t = nil := by
  rw [h.root]
  exact h.repr.root_eq_zero

theorem sound_create : Sound key smRbtCreate nil where
  repr := trivial
  nodup := List.nodup_nil
  root := rfl
  ascending := List.Pairwise.nil
  balanced := ⟨0, Balanced.nil⟩
  black := rfl
  length := rfl
  allocated := List.Perm.refl _

end SmrbtOrder
