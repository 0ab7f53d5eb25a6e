import Mathlib

/-!
Binary trees whose nodes have an identity and a colour, with the two sides
treated alike: a side is an argument, and so is the order in which the elements
are listed. A place in a tree is a tree together with the frames above it.
-/

namespace RedBlack

inductive Dir
  | left | right
  deriving DecidableEq, Repr

def Dir.other : Dir → Dir
  | .left => .right
  | .right => .left

@[simp] theorem Dir.other_left : Dir.left.other = Dir.right := rfl
@[simp] theorem Dir.other_right : Dir.right.other = Dir.left := rfl
@[simp] theorem Dir.other_other (d : Dir) : d.other.other = d := by cases d <;> rfl
@[simp] theorem Dir.other_ne (d : Dir) : d.other ≠ d := by cases d <;> decide
@[simp] theorem Dir.ne_other (d : Dir) : d ≠ d.other := by cases d <;> decide

theorem Dir.eq_other_of_ne {d e : Dir} (h : d ≠ e) : d = e.other := by
  cases d <;> cases e <;> simp at h ⊢

inductive Tree (ι α : Type)
  | nil
  | node (addr : ι) (isRed : Bool) (data : α) (left right : Tree ι α)

namespace Tree

variable {ι α : Type}

def isRed : Tree ι α → Bool
  | nil => false
  | node _ red _ _ _ => red

def kid : Tree ι α → Dir → Tree ι α
  | nil, _ => nil
  | node _ _ _ l _, .left => l
  | node _ _ _ _ r, .right => r

/-- The node with one subtree on the given side and one on the other. -/
def branch (d : Dir) (addr : ι) (isRed : Bool) (data : α) (near far : Tree ι α) : Tree ι α :=
  match d with
  | .left => node addr isRed data near far
  | .right => node addr isRed data far near

/-- The root in another colour. -/
def paint (red : Bool) : Tree ι α → Tree ι α
  | nil => nil
  | node addr _ data l r => node addr red data l r

/-- The elements in ascending order for the right side, in descending order for the left one. -/
def walk (d : Dir) : Tree ι α → List (ι × α)
  | nil => []
  | node addr _ data l r =>
    match d with
    | .left => walk d r ++ (addr, data) :: walk d l
    | .right => walk d l ++ (addr, data) :: walk d r

def addrs (t : Tree ι α) : List ι := (t.walk .right).map Prod.fst

variable {d : Dir} {addr : ι} {red : Bool} {data : α} {near far t : Tree ι α}

@[simp] theorem isRed_nil : (nil : Tree ι α).isRed = false := rfl
@[simp] theorem isRed_branch : (branch d addr red data near far).isRed = red := by cases d <;> rfl
@[simp] theorem kid_nil : (nil : Tree ι α).kid d = nil := rfl
@[simp] theorem kid_branch : (branch d addr red data near far).kid d = near := by cases d <;> rfl
@[simp] theorem kid_branch_other : (branch d addr red data near far).kid d.other = far := by cases d <;> rfl
@[simp] theorem branch_ne_nil : branch d addr red data near far ≠ nil := by cases d <;> simp [branch]
@[simp] theorem paint_nil : (nil : Tree ι α).paint red = nil := rfl
@[simp] theorem paint_branch {b : Bool} :
    (branch d addr red data near far).paint b = branch d addr b data near far := by cases d <;> rfl

@[simp] theorem isRed_paint_black : (t.paint false).isRed = false := by
  cases t <;> rfl

theorem branch_other : branch d.other addr red data near far = branch d addr red data far near := by
  cases d <;> rfl

theorem branch_swap (d : Dir) (addr : ι) (red : Bool) (data : α) (near far : Tree ι α) :
    branch d addr red data near far = branch d.other addr red data far near := branch_other.symm

/-- Seen from either side, a tree is empty or a node. -/
theorem eq_nil_or_branch (d : Dir) (t : Tree ι α) :
    t = nil ∨ ∃ addr red data near far, t = branch d addr red data near far := by
  cases t with
  | nil => exact Or.inl rfl
  | node addr red data l r =>
    cases d
    · exact Or.inr ⟨addr, red, data, l, r, rfl⟩
    · exact Or.inr ⟨addr, red, data, r, l, rfl⟩

theorem exists_branch (d : Dir) (h : t ≠ nil) :
    ∃ addr red data near far, t = branch d addr red data near far :=
  (eq_nil_or_branch d t).resolve_left h

/-- Induction with the subtrees told apart by side. -/
@[elab_as_elim] theorem side_induction (d : Dir) {motive : Tree ι α → Prop} (nil : motive nil)
    (branch : ∀ addr red data near far, motive near → motive far → motive (branch d addr red data near far))
    (t : Tree ι α) : motive t := by
  induction t with
  | nil => exact nil
  | node addr red data l r ihl ihr =>
    cases d
    · exact branch addr red data l r ihl ihr
    · exact branch addr red data r l ihr ihl

theorem ne_nil_of_isRed (h : t.isRed = true) : t ≠ nil := by
  rintro rfl
  cases h

@[simp] theorem walk_nil : (nil : Tree ι α).walk d = [] := rfl

@[simp] theorem walk_branch :
    (branch d addr red data near far).walk d = far.walk d ++ (addr, data) :: near.walk d := by
  cases d <;> simp [branch, walk]

@[simp] theorem walk_branch_other :
    (branch d.other addr red data near far).walk d = near.walk d ++ (addr, data) :: far.walk d := by
  cases d <;> simp [branch, walk]

@[simp] theorem walk_paint {b : Bool} : (t.paint b).walk d = t.walk d := by
  cases t <;> cases d <;> rfl

/-- Both orders list the same elements. -/
theorem walk_other (d : Dir) (t : Tree ι α) : t.walk d.other = (t.walk d).reverse := by
  induction t with
  | nil => rfl
  | node addr red data l r ihl ihr => cases d <;> simp_all [walk]

theorem walk_perm (d e : Dir) (t : Tree ι α) : (t.walk d).Perm (t.walk e) := by
  by_cases h : d = e
  · rw [h]
  · rw [Dir.eq_other_of_ne h, walk_other]
    exact List.reverse_perm _

theorem addrs_perm (d : Dir) (t : Tree ι α) : t.addrs.Perm ((t.walk d).map Prod.fst) :=
  (walk_perm .right d t).map Prod.fst

@[simp] theorem addrs_nil : (nil : Tree ι α).addrs = [] := rfl

theorem addrs_branch_perm :
    (branch d addr red data near far).addrs.Perm (addr :: (near.addrs ++ far.addrs)) := by
  cases d
  · simp only [addrs, branch, walk, List.map_append, List.map_cons]
    exact List.perm_middle
  · simp only [addrs, branch, walk, List.map_append, List.map_cons]
    exact List.perm_middle.trans (List.perm_append_comm.cons _)

@[simp] theorem mem_addrs_branch {i : ι} :
    i ∈ (branch d addr red data near far).addrs ↔ i = addr ∨ i ∈ near.addrs ∨ i ∈ far.addrs := by
  simp [addrs_branch_perm.mem_iff]

@[simp] theorem addrs_paint {b : Bool} : (t.paint b).addrs = t.addrs := by simp [addrs]

/-- The elements with the children of a node before the node, those on the left first. -/
def postorder : Tree ι α → List (ι × α)
  | nil => []
  | node addr _ data l r => postorder l ++ postorder r ++ [(addr, data)]

theorem postorder_perm (t : Tree ι α) : t.postorder.Perm (t.walk .right) := by
  induction t with
  | nil => exact List.Perm.refl _
  | node addr red data l r ihl ihr =>
    rw [postorder, List.append_assoc]
    exact ihl.append ((List.perm_append_singleton _ _).trans (ihr.cons _))

theorem addrs_postorder (t : Tree ι α) : (t.postorder.map Prod.fst).Perm t.addrs :=
  (postorder_perm t).map Prod.fst

/-- A child takes the place of its parent: the order of the elements stays. -/
theorem walk_rotate (d e : Dir) {i j : ι} {r r' s s' : Bool} {x y : α} {a b c : Tree ι α} :
    (branch e i r x a (branch e j s y b c)).walk d = (branch e j s' y (branch e i r' x a b) c).walk d := by
  by_cases h : d = e
  · subst h
    simp
  · rw [Dir.eq_other_of_ne h, walk_other, walk_other]
    simp

/-- No red node has a red child, and every way down meets the same number of black nodes. -/
inductive Balanced : Nat → Tree ι α → Prop
  | nil : Balanced 0 nil
  | red {n : Nat} {addr : ι} {data : α} {l r : Tree ι α} : Balanced n l → Balanced n r →
      l.isRed = false → r.isRed = false → Balanced n (node addr true data l r)
  | black {n : Nat} {addr : ι} {data : α} {l r : Tree ι α} : Balanced n l → Balanced n r →
      Balanced (n + 1) (node addr false data l r)

variable {n m : Nat}

@[simp] theorem balanced_nil : Balanced n (nil : Tree ι α) ↔ n = 0 := by
  constructor
  · rintro ⟨⟩
    rfl
  · rintro rfl
    exact Balanced.nil

@[simp] theorem balanced_red : Balanced n (branch d addr true data near far) ↔
    (Balanced n near ∧ near.isRed = false) ∧ (Balanced n far ∧ far.isRed = false) := by
  constructor
  · cases d
    · rintro ⟨⟩
      simp_all
    · rintro ⟨⟩
      simp_all
  · rintro ⟨⟨hn, hnr⟩, hf, hfr⟩
    cases d
    · exact Balanced.red hn hf hnr hfr
    · exact Balanced.red hf hn hfr hnr

@[simp] theorem balanced_black : Balanced (n + 1) (branch d addr false data near far) ↔
    Balanced n near ∧ Balanced n far := by
  constructor
  · cases d
    · rintro ⟨⟩
      simp_all
    · rintro ⟨⟩
      simp_all
  · rintro ⟨hn, hf⟩
    cases d
    · exact Balanced.black hn hf
    · exact Balanced.black hf hn

theorem Balanced.height_of_black (h : Balanced n (branch d addr false data near far)) : ∃ m, n = m + 1 := by
  cases d
  · cases h
    exact ⟨_, rfl⟩
  · cases h
    exact ⟨_, rfl⟩

theorem Balanced.kid (h : Balanced n t) (ht : t.isRed = true) (d : Dir) :
    Balanced n (t.kid d) ∧ (t.kid d).isRed = false := by
  obtain ⟨addr, red, data, near, far, rfl⟩ := exists_branch d (ne_nil_of_isRed ht)
  obtain rfl : red = true := by simpa using ht
  simpa using (balanced_red.mp h).1

theorem Balanced.exists_kid (h : Balanced n t) (d : Dir) : ∃ m, Balanced m (t.kid d) := by
  cases h with
  | nil => exact ⟨0, Balanced.nil⟩
  | red hl hr => cases d <;> exact ⟨_, by assumption⟩
  | black hl hr => cases d <;> exact ⟨_, by assumption⟩

/-- A red root may turn black, which adds one to the height. -/
theorem Balanced.paint_black (h : Balanced n t) (ht : t.isRed = true) : Balanced (n + 1) (t.paint false) := by
  obtain ⟨addr, red, data, near, far, rfl⟩ := exists_branch .left (ne_nil_of_isRed ht)
  obtain rfl : red = true := by simpa using ht
  rw [balanced_red] at h
  simp [h]

/-- A black root without red children may turn red, which takes one off the height. -/
theorem Balanced.paint_red (h : Balanced (n + 1) t) (ht : t.isRed = false) (hl : (t.kid .left).isRed = false)
    (hr : (t.kid .right).isRed = false) : Balanced n (t.paint true) := by
  cases h with
  | red => cases ht
  | black hbl hbr => exact Balanced.red hbl hbr hl hr

theorem Balanced.exists_paint_black (h : Balanced n t) : ∃ m, Balanced m (t.paint false) := by
  cases ht : t.isRed with
  | true => exact ⟨n + 1, h.paint_black ht⟩
  | false =>
    cases h with
    | nil => exact ⟨0, Balanced.nil⟩
    | red => cases ht
    | black hl hr => exact ⟨_, Balanced.black hl hr⟩

/-- Without black nodes there is at most a red leaf. -/
theorem Balanced.eq_nil (h : Balanced 0 t) (ht : t.isRed = false) : t = Tree.nil := by
  cases h with
  | nil => rfl
  | red => cases ht

end Tree

open RedBlack.Tree

/-- A node on the way down: the side taken, the node itself, and the subtree on the other side. -/
structure Frame (ι α : Type) where
  dir : Dir
  addr : ι
  isRed : Bool
  data : α
  sib : Tree ι α

variable {ι α : Type}

def Frame.fill (f : Frame ι α) (t : Tree ι α) : Tree ι α := branch f.dir f.addr f.isRed f.data t f.sib

/-- The whole tree around a place, the innermost frame first. -/
def plug : List (Frame ι α) → Tree ι α → Tree ι α
  | [], t => t
  | f :: fs, t => plug fs (f.fill t)

/-- What follows the place when the elements are listed in an order. -/
def rest (d : Dir) : List (Frame ι α) → List (ι × α)
  | [] => []
  | f :: fs => if f.dir = d then rest d fs else (f.addr, f.data) :: f.sib.walk d ++ rest d fs

def ctxAddrs (fs : List (Frame ι α)) : List ι := (rest .left fs ++ rest .right fs).map Prod.fst

variable {f : Frame ι α} {fs : List (Frame ι α)} {t u : Tree ι α} {d : Dir}

@[simp] theorem plug_nil : plug [] t = t := rfl
@[simp] theorem plug_cons : plug (f :: fs) t = plug fs (f.fill t) := rfl
@[simp] theorem rest_nil : rest d ([] : List (Frame ι α)) = [] := rfl
@[simp] theorem rest_cons_self : rest f.dir (f :: fs) = rest f.dir fs := by simp [rest]
@[simp] theorem rest_cons_other :
    rest f.dir.other (f :: fs) = (f.addr, f.data) :: f.sib.walk f.dir.other ++ rest f.dir.other fs := by
  simp [rest]

/-- Colours do not matter to what follows a place. -/
theorem rest_congr {gs : List (Frame ι α)} (h : rest d fs = rest d gs) (e : Dir) (addr : ι) (c c' : Bool) (data : α)
    (sib : Tree ι α) : rest d (⟨e, addr, c, data, sib⟩ :: fs) = rest d (⟨e, addr, c', data, sib⟩ :: gs) := by
  rw [rest, rest, h]

/-- Frames with the same elements beside the way. -/
theorem rest_eq_of_other {gs : List (Frame ι α)} (e : Dir) (hself : rest e fs = rest e gs)
    (hother : rest e.other fs = rest e.other gs) (d : Dir) : rest d fs = rest d gs := by
  by_cases h : d = e
  · rw [h, hself]
  · rw [Dir.eq_other_of_ne h, hother]

theorem walk_fill_self : (f.fill t).walk f.dir = f.sib.walk f.dir ++ (f.addr, f.data) :: t.walk f.dir := by
  simp [Frame.fill]

theorem walk_fill_other :
    (f.fill t).walk f.dir.other = t.walk f.dir.other ++ (f.addr, f.data) :: f.sib.walk f.dir.other := by
  simp [Frame.fill, ← branch_other (d := f.dir)]

theorem plug_append (gs fs : List (Frame ι α)) (t : Tree ι α) : plug (gs ++ fs) t = plug fs (plug gs t) := by
  induction gs generalizing t with
  | nil => rfl
  | cons g gs ih => exact ih (g.fill t)

/-- Every element has a place. -/
theorem exists_place {i : ι} {x : α} (d : Dir) (h : (i, x) ∈ t.walk .right) :
    ∃ fs red near far, t = plug fs (branch d i red x near far) := by
  induction t with
  | nil => cases h
  | node b c y l r ihl ihr =>
    rw [walk, List.mem_append, List.mem_cons] at h
    obtain hl | heq | hr := h
    · obtain ⟨fs, red, near, far, hplug⟩ := ihl hl
      refine ⟨fs ++ [⟨.left, b, c, y, r⟩], red, near, far, ?_⟩
      rw [plug_append, ← hplug]
      rfl
    · obtain ⟨rfl, rfl⟩ := Prod.mk.inj heq
      cases d
      · exact ⟨[], c, l, r, rfl⟩
      · exact ⟨[], c, r, l, rfl⟩
    · obtain ⟨fs, red, near, far, hplug⟩ := ihr hr
      refine ⟨fs ++ [⟨.right, b, c, y, l⟩], red, near, far, ?_⟩
      rw [plug_append, ← hplug]
      rfl

/-- Before the place, the place, and what follows it. -/
theorem walk_plug (d : Dir) (fs : List (Frame ι α)) (t : Tree ι α) :
    (plug fs t).walk d = (rest d.other fs).reverse ++ t.walk d ++ rest d fs := by
  induction fs generalizing t with
  | nil => simp
  | cons f fs ih =>
    rw [plug_cons, ih]
    by_cases h : f.dir = d
    · subst h
      simp [walk_fill_self, walk_other f.dir f.sib]
    · obtain rfl : f.dir.other = d := by rw [Dir.eq_other_of_ne h, Dir.other_other]
      simp [walk_fill_other]

theorem walk_plug_congr (h : ∀ e, t.walk e = u.walk e) : (plug fs t).walk d = (plug fs u).walk d := by
  rw [walk_plug, walk_plug, h]

theorem addrs_plug_perm (fs : List (Frame ι α)) (t : Tree ι α) :
    (plug fs t).addrs.Perm (ctxAddrs fs ++ t.addrs) := by
  rw [addrs, walk_plug, ctxAddrs, addrs, ← List.map_append]
  apply List.Perm.map
  rw [List.append_assoc, Dir.other_right, List.append_assoc]
  exact (List.reverse_perm _).append List.perm_append_comm

/-- An element of the tree has a place, and what comes after the element in an order follows the place. -/
theorem exists_place_of_walk {i : ι} {x : α} {A B : List (ι × α)} (hnodup : t.addrs.Nodup)
    (h : t.walk d = A ++ (i, x) :: B) :
    ∃ fs red near far, t = plug fs (branch d i red x near far) ∧ near.walk d ++ rest d fs = B := by
  have hmem : (i, x) ∈ t.walk .right := (walk_perm d .right t).mem_iff.mp (by simp [h])
  obtain ⟨fs, red, near, far, hplug⟩ := exists_place d hmem
  refine ⟨fs, red, near, far, hplug, ?_⟩
  have hwalk : t.walk d = (rest d.other fs).reverse ++ far.walk d ++ (i, x) :: (near.walk d ++ rest d fs) := by
    rw [hplug, walk_plug, walk_branch]
    simp
  have hnd : (t.walk d).Nodup := ((addrs_perm d t).nodup_iff.mp hnodup).of_map
  rw [h] at hwalk hnd
  have hnot := List.nodup_middle.mp hnd
  rw [List.nodup_cons, List.mem_append, not_or] at hnot
  have hsplit := (List.append_cons_inj_of_notMem hnot.1.1 hnot.1.2).mp hwalk
  exact hsplit.2.2.symm

theorem ctxAddrs_cons_perm : (ctxAddrs (f :: fs)).Perm (f.addr :: (f.sib.addrs ++ ctxAddrs fs)) := by
  have hfill := addrs_plug_perm fs (f.fill nil)
  have hplug := addrs_plug_perm (f :: fs) nil
  rw [plug_cons, addrs_nil, List.append_nil] at hplug
  have hf : (f.fill nil).addrs.Perm (f.addr :: f.sib.addrs) := addrs_branch_perm
  exact hplug.symm.trans (hfill.trans (List.perm_append_comm.trans (hf.append_right _)))

@[simp] theorem ctxAddrs_nil : ctxAddrs ([] : List (Frame ι α)) = [] := rfl

@[simp] theorem mem_ctxAddrs_cons {i : ι} :
    i ∈ ctxAddrs (f :: fs) ↔ i = f.addr ∨ i ∈ f.sib.addrs ∨ i ∈ ctxAddrs fs := by
  simp [ctxAddrs_cons_perm.mem_iff]

/-- The place holds a balanced tree of the height exactly where the whole is balanced. -/
inductive BalancedCtx : Nat → Bool → List (Frame ι α) → Prop
  | nil {n : Nat} {red : Bool} : BalancedCtx n red []
  | red {n : Nat} {d : Dir} {addr : ι} {data : α} {sib : Tree ι α} {fs : List (Frame ι α)} :
      Balanced n sib → sib.isRed = false → BalancedCtx n true fs →
      BalancedCtx n false (⟨d, addr, true, data, sib⟩ :: fs)
  | black {n : Nat} {red : Bool} {d : Dir} {addr : ι} {data : α} {sib : Tree ι α} {fs : List (Frame ι α)} :
      Balanced n sib → BalancedCtx (n + 1) false fs →
      BalancedCtx n red (⟨d, addr, false, data, sib⟩ :: fs)

variable {n m : Nat} {red : Bool}

@[simp] theorem balancedCtx_nil : BalancedCtx n red ([] : List (Frame ι α)) := BalancedCtx.nil

theorem balancedCtx_red {addr : ι} {data : α} {sib : Tree ι α} :
    BalancedCtx n red (⟨d, addr, true, data, sib⟩ :: fs) ↔
      red = false ∧ (Balanced n sib ∧ sib.isRed = false) ∧ BalancedCtx n true fs := by
  constructor
  · rintro ⟨⟩
    simp_all
  · rintro ⟨rfl, ⟨hs, hr⟩, hfs⟩
    exact BalancedCtx.red hs hr hfs

theorem balancedCtx_black {addr : ι} {data : α} {sib : Tree ι α} :
    BalancedCtx n red (⟨d, addr, false, data, sib⟩ :: fs) ↔ Balanced n sib ∧ BalancedCtx (n + 1) false fs := by
  constructor
  · rintro ⟨⟩
    simp_all
  · rintro ⟨hs, hfs⟩
    exact BalancedCtx.black hs hfs

theorem BalancedCtx.frame_red (h : BalancedCtx n red (f :: fs)) (hf : f.isRed = true) :
    red = false ∧ (Balanced n f.sib ∧ f.sib.isRed = false) ∧ BalancedCtx n true fs := by
  obtain ⟨d, addr, c, data, sib⟩ := f
  obtain rfl : c = true := hf
  exact balancedCtx_red.mp h

theorem BalancedCtx.frame_black (h : BalancedCtx n red (f :: fs)) (hf : f.isRed = false) :
    Balanced n f.sib ∧ BalancedCtx (n + 1) false fs := by
  obtain ⟨d, addr, c, data, sib⟩ := f
  obtain rfl : c = false := hf
  exact balancedCtx_black.mp h

/-- Above a red node there is a black one. -/
theorem BalancedCtx.head_black (h : BalancedCtx n true (f :: fs)) : f.isRed = false := by
  cases hf : f.isRed with
  | false => rfl
  | true => cases (h.frame_red hf).1

/-- A black tree fits wherever a red one does. -/
theorem BalancedCtx.weaken (h : BalancedCtx n red fs) : BalancedCtx n false fs := by
  cases h with
  | nil => exact BalancedCtx.nil
  | red hs hr hfs => exact BalancedCtx.red hs hr hfs
  | black hs hfs => exact BalancedCtx.black hs hfs

theorem BalancedCtx.of_black (h : BalancedCtx n false fs) (hf : ∀ f ∈ fs.head?, f.isRed = false) :
    BalancedCtx n true fs := by
  cases h with
  | nil => exact BalancedCtx.nil
  | red => simp at hf
  | black hs hfs => exact BalancedCtx.black hs hfs

/-- Balance of the whole is balance of the place and of what is around it. -/
theorem exists_balanced_plug :
    (∃ n, Balanced n (plug fs t)) ↔ ∃ n, Balanced n t ∧ BalancedCtx n t.isRed fs := by
  induction fs generalizing t with
  | nil => simp
  | cons f fs ih =>
    rw [plug_cons, ih]
    obtain ⟨d, addr, red, data, sib⟩ := f
    cases red with
    | true =>
      simp only [Frame.fill, balanced_red, balancedCtx_red, isRed_branch]
      tauto
    | false =>
      simp only [Frame.fill, balancedCtx_black, isRed_branch]
      constructor
      · rintro ⟨n, ht, hfs⟩
        obtain ⟨m, rfl⟩ := ht.height_of_black
        rw [balanced_black] at ht
        exact ⟨m, ht.1, ht.2, hfs⟩
      · rintro ⟨n, ht, hs, hfs⟩
        exact ⟨n + 1, balanced_black.mpr ⟨ht, hs⟩, hfs⟩

/-- The first element that follows the place gets other data. -/
def relabel (d : Dir) (y : α) : List (Frame ι α) → List (Frame ι α)
  | [] => []
  | f :: fs => if f.dir = d then f :: relabel d y fs else { f with data := y } :: fs

variable {y : α}

@[simp] theorem relabel_nil : relabel d y ([] : List (Frame ι α)) = [] := rfl

theorem relabel_cons_self (h : f.dir = d) : relabel d y (f :: fs) = f :: relabel d y fs := by simp [relabel, h]

theorem relabel_cons_other (h : f.dir ≠ d) : relabel d y (f :: fs) = { f with data := y } :: fs := by
  simp [relabel, h]

theorem rest_relabel_other : rest d.other (relabel d y fs) = rest d.other fs := by
  induction fs with
  | nil => rfl
  | cons f fs ih =>
    by_cases h : f.dir = d
    · subst h
      rw [relabel_cons_self rfl, rest_cons_other, rest_cons_other, ih]
    · rw [relabel_cons_other h]
      simp [rest, Dir.eq_other_of_ne h]

theorem rest_relabel {i : ι} {x : α} {l : List (ι × α)} (h : rest d fs = (i, x) :: l) :
    rest d (relabel d y fs) = (i, y) :: l := by
  induction fs with
  | nil => cases h
  | cons f fs ih =>
    by_cases hd : f.dir = d
    · rw [relabel_cons_self hd]
      simp only [rest, hd, if_true] at h ⊢
      exact ih h
    · rw [relabel_cons_other hd]
      simp only [rest, if_neg hd, List.cons_append, List.cons.injEq, Prod.mk.injEq] at h ⊢
      exact ⟨⟨h.1.1, trivial⟩, h.2⟩

theorem ctxAddrs_relabel : ctxAddrs (relabel d y fs) = ctxAddrs fs := by
  have hself : (rest d (relabel d y fs)).map Prod.fst = (rest d fs).map Prod.fst := by
    induction fs with
    | nil => rfl
    | cons f fs ih =>
      by_cases hd : f.dir = d
      · rw [relabel_cons_self hd]
        simpa [rest, hd] using ih
      · simp [relabel_cons_other hd, rest, hd]
  have hother : (rest d.other (relabel d y fs)).map Prod.fst = (rest d.other fs).map Prod.fst := by
    rw [rest_relabel_other]
  rw [ctxAddrs, ctxAddrs, List.map_append, List.map_append]
  cases d
  · rw [hself]
    exact congrArg _ hother
  · rw [hself]
    exact congrArg (· ++ _) hother

theorem balancedCtx_relabel (h : BalancedCtx n red fs) : BalancedCtx n red (relabel d y fs) := by
  induction h with
  | nil => exact BalancedCtx.nil
  | @red n e addr data sib fs hs hr hfs ih =>
    by_cases hd : e = d
    · rw [relabel_cons_self (by exact hd)]
      exact BalancedCtx.red hs hr ih
    · rw [relabel_cons_other (by exact hd)]
      exact BalancedCtx.red hs hr hfs
  | @black n red e addr data sib fs hs hfs ih =>
    by_cases hd : e = d
    · rw [relabel_cons_self (by exact hd)]
      exact BalancedCtx.black hs ih
    · rw [relabel_cons_other (by exact hd)]
      exact BalancedCtx.black hs hfs

end RedBlack
