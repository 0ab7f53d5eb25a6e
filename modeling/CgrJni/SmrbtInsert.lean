import CgrJni.SmrbtOrder

/-!
Insertion, one pass from the root down. The pointers to the grandparent and to
the great-grandparent are not refreshed after a rotation, so the invariant says
in which rounds they are out of date, and that those rounds do not follow them.
-/

namespace SmrbtInsert

open RedBlack RedBlack.Tree LinkedTree Smrbt SmrbtMoves SmrbtOrder

/-- The pass is at a place: the tree there, and the frames from its parent up to the dummy root. -/
structure At (fs : Path) (t : RbTree) (s : InsertPass) : Prop where
  holds : Holds s.nodes fs t
  node : s.node = root t
  parent : s.parent = top fs

variable {fs : Path} {t : RbTree} {s : InsertPass} {newNode data : PsmAddress}

theorem nodeIsRed_node (h : At fs t s) : nodeIsRed s.nodes s.node = t.isRed := by
  rw [h.node]
  exact nodeIsRed_root h.holds.tree

theorem nodeIsRed_parent {f : Frame Nat PsmAddress} (h : At (f :: fs) t s) :
    nodeIsRed s.nodes s.parent = f.isRed := by
  obtain ⟨hf, hcell⟩ := frame_of_holds h.holds
  rw [h.parent]
  simp [nodeIsRed, hf, hcell]

theorem nodeIsRed_kid {d : Dir} (h : At fs t s) (ht : t ≠ nil) :
    nodeIsRed s.nodes ((s.nodes s.node).child d) = (t.kid d).isRed := by
  rw [h.node]
  exact nodeIsRed_child h.holds.tree ht

theorem root_ne_zero (h : At fs t s) : s.node = 0 ↔ t = nil := by
  rw [h.node]
  exact h.holds.tree.root_eq_zero

/-- The new node, red and without children, where there was none. -/
theorem place_holds (h : At fs nil s) (hfs : fs ≠ []) (hdir : s.direction = topDir fs) (hnew : newNode ≠ 0)
    (hfresh : newNode ∉ ctxAddrs fs) :
    ∃ s', placeOrFlip newNode data s = some s' ∧ At fs (branch .left newNode true data nil nil) s' ∧
      s' = { s with nodes := s'.nodes, node := newNode } := by
  have hparent : s.parent ≠ 0 := by
    rw [h.parent]
    exact h.holds.ctx.ne_zero (top_mem hfs)
  have hnode : s.node = 0 := h.node
  have hout : ∀ a, a ≠ newNode → createNode s.nodes newNode s.parent data true a = s.nodes a := by
    intro a ha
    simp [createNode, ha]
  have hrepr : Repr (createNode s.nodes newNode s.parent data true) (top fs)
      (branch .left newNode true data nil nil) := by
    rw [repr_branch]
    refine ⟨hnew, ?_, trivial, trivial⟩
    simp only [createNode, Function.update_self, root_nil, ← h.parent]
    rw [← links_swap (d := .left), Dir.other_left]
  have hholds := h.holds.replace (fun a ha => hout a (ne_of_mem_of_not_mem ha hfresh)) (hout 0 hnew.symm) hrepr
    (by simp [addrs, branch, walk]) (fun a ha => by
      rw [mem_addrs_branch]
      simp only [addrs_nil, List.not_mem_nil, or_false]
      exact ne_of_mem_of_not_mem ha hfresh)
  rw [root_branch, ← hdir, ← h.parent] at hholds
  refine ⟨{ s with
    nodes := setChild (createNode s.nodes newNode s.parent data true) s.parent s.direction newNode
    node := newNode }, ?_, ⟨hholds, root_branch.symm, h.parent⟩, rfl⟩
  simp [placeOrFlip, hnode, hparent]

/-- The node with its colour and that of its children exchanged. -/
def flipped : RbTree → RbTree
  | nil => nil
  | node a _ x l r => node a true x (l.paint false) (r.paint false)

theorem flip_holds (newNode data : PsmAddress) (h : At fs t s) (hl : (t.kid .left).isRed = true)
    (hr : (t.kid .right).isRed = true) :
    ∃ s', placeOrFlip newNode data s = some s' ∧ At fs (flipped t) s' ∧ s' = { s with nodes := s'.nodes } := by
  have ht : t ≠ nil := by
    rintro rfl
    cases hl
  have hnode : s.node ≠ 0 := mt (root_ne_zero h).mp ht
  obtain ⟨a, r, x, l, far, rfl⟩ := exists_branch .left ht
  have hredl := nodeIsRed_kid (d := .left) h branch_ne_nil
  have hredr := nodeIsRed_kid (d := .right) h branch_ne_nil
  have hleft : (s.nodes s.node).child .left = root l := by
    rw [h.node, root_branch]
    exact child_near h.holds
  have hright : (s.nodes s.node).child .right = root far := by
    rw [h.node, root_branch]
    exact child_far h.holds
  rw [hl, hleft] at hredl
  rw [hr, hright] at hredr
  have hl' : l.isRed = true := hl
  have hr' : far.isRed = true := hr
  have h1 := paint_holds h.holds branch_ne_nil true
  rw [paint_branch, root_branch] at h1
  have h2 := paint_near h1 (ne_nil_of_isRed hl') false
  have h3 := paint_far h2 (ne_nil_of_isRed hr') false
  refine ⟨{ s with nodes := setRed (setRed (setRed s.nodes s.node true) (root l) false) (root far) false },
    ?_, ⟨?_, ?_, h.parent⟩, rfl⟩
  · rw [placeOrFlip, if_neg hnode]
    simp only [hleft, hright, hredl, hredr, Bool.and_self, if_true]
  · rw [h.node, root_branch]
    exact h3
  · exact h.node

theorem keep_placeOrFlip (h : At fs t s) (ht : t ≠ nil)
    (hkids : ¬ ((t.kid .left).isRed = true ∧ (t.kid .right).isRed = true)) :
    placeOrFlip newNode data s = some s := by
  rw [placeOrFlip, if_neg (mt (root_ne_zero h).mp ht)]
  simp only [nodeIsRed_kid h ht, Bool.and_eq_true, hkids, if_false]

theorem keep_fixViolation (h : At fs t s) (hcalm : t.isRed = false ∨ ∀ f ∈ fs.head?, f.isRed = false) :
    fixViolation s = some s := by
  have hno : (nodeIsRed s.nodes s.parent && nodeIsRed s.nodes s.node) = false := by
    cases hcalm with
    | inl ht => rw [nodeIsRed_node h, ht, Bool.and_false]
    | inr hf =>
      cases fs with
      | nil => simp [h.parent, nodeIsRed]
      | cons f fs => rw [nodeIsRed_parent h, hf f rfl, Bool.false_and]
  simp [fixViolation, hno]

variable {f g : Frame Nat PsmAddress} {r : Path}

/-- What a round with a red violation reads before it rotates. -/
structure Violation (f g : Frame Nat PsmAddress) (r : Path) (t : RbTree) (s : InsertPass) : Prop where
  place : At (f :: g :: r) t s
  parentRed : f.isRed = true
  nodeRed : t.isRed = true
  grandparent : s.grandparent = g.addr
  greatgrandparentPtr : s.greatgrandparentPtr = top r
  prevDirection : s.prevDirection = g.dir

theorem Violation.holds (h : Violation f g r t s) : Holds s.nodes r
    (branch g.dir g.addr g.isRed g.data (branch f.dir f.addr f.isRed f.data t f.sib) g.sib) := by
  have hplace := h.place.holds
  rw [← holds_fill, ← holds_fill] at hplace
  exact hplace

theorem Violation.subtree (h : Violation f g r t s) :
    (if (s.nodes s.greatgrandparentPtr).child .right = s.grandparent then Dir.right else Dir.left) =
      topDir r := by
  have hside := subtree_eq_topDir h.holds branch_ne_nil
  rw [root_branch] at hside
  rw [h.greatgrandparentPtr, h.grandparent]
  exact hside

/-- The node is the child on the side last taken before exactly if both steps went to one side. -/
theorem Violation.straight_iff (h : Violation f g r t s) :
    s.node = (s.nodes s.parent).child s.prevDirection ↔ f.dir = g.dir := by
  have ht := ne_nil_of_isRed h.nodeRed
  rw [h.place.node, h.place.parent, h.prevDirection, top_cons]
  constructor
  · intro heq
    by_contra hne
    have hdir : g.dir = f.dir.other := Dir.eq_other_of_ne (Ne.symm hne)
    rw [hdir, frame_child_other h.place.holds] at heq
    have hmem : root f.sib ∈ f.sib.addrs := by
      apply root_mem
      intro hnil
      rw [hnil, root_nil] at heq
      exact ht (h.place.holds.tree.root_eq_zero.mp heq)
    rw [← heq] at hmem
    exact h.place.holds.apart (root t) (by simp [hmem]) (root_mem ht)
  · intro hdir
    rw [← hdir, frame_child h.place.holds]

theorem Violation.fixViolation_eq (h : Violation f g r t s) : fixViolation s =
    (if f.dir = g.dir then rotateOnce s.nodes g.addr g.dir.other
      else rotateTwice s.nodes g.addr g.dir.other).map
        (fun a => { s with nodes := setChild a.1 (top r) (topDir r) a.2 }) := by
  have hboth : (nodeIsRed s.nodes s.parent && nodeIsRed s.nodes s.node) = true := by
    rw [nodeIsRed_parent h.place, nodeIsRed_node h.place, h.parentRed, h.nodeRed, Bool.and_self]
  rw [fixViolation, if_pos hboth]
  simp only [h.subtree, h.straight_iff]
  rw [h.grandparent, h.greatgrandparentPtr, h.prevDirection]

/-- Two steps to one side: the parent comes to the top, above the node and the grandparent. -/
theorem fix_straight (h : Violation f g r t s) (hdir : f.dir = g.dir) :
    ∃ s', fixViolation s = some s' ∧
      At (⟨g.dir, f.addr, false, f.data, branch g.dir g.addr true g.data f.sib g.sib⟩ :: r) t s' ∧
      s' = { s with nodes := s'.nodes } := by
  have hholds := h.holds
  rw [hdir] at hholds
  simp only [branch_swap g.dir] at hholds
  obtain ⟨nodes', hrot, hnew⟩ := rotateOnce_holds hholds
  refine ⟨{ s with nodes := setChild nodes' (top r) (topDir r) f.addr }, ?_, ⟨?_, h.place.node, h.place.parent⟩, rfl⟩
  · rw [h.fixViolation_eq, if_pos hdir, hrot]
    rfl
  · simp only [branch_other] at hnew
    exact holds_branch.mp hnew

/-- A step to either side: the node itself comes to the top, between its parent and grandparent. -/
theorem fix_bent {q : Nat} {qx : PsmAddress} {far orphan : RbTree} (ht : t = branch f.dir q true qx far orphan)
    (h : Violation f g r t s) (hdir : f.dir = g.dir.other) :
    ∃ s', fixViolation s = some s' ∧
      Holds s'.nodes r (branch f.dir q false qx (branch f.dir g.addr true g.data g.sib far)
        (branch f.dir f.addr true f.data orphan f.sib)) ∧
      s' = { s with nodes := s'.nodes } := by
  have hholds := h.holds
  rw [branch_swap g.dir, ← hdir, ht] at hholds
  obtain ⟨nodes', hrot, hnew⟩ := rotateTwice_holds hholds
  refine ⟨{ s with nodes := setChild nodes' (top r) (topDir r) q }, ?_, hnew, rfl⟩
  rw [h.fixViolation_eq, if_neg (by rw [hdir]; exact Dir.other_ne g.dir), ← hdir, hrot]
  rfl

variable {κ : Type} [LinearOrder κ] {compare : PsmAddress → κ → Int} {key : PsmAddress → κ} {k : κ}
variable {E : List (Nat × PsmAddress)} {n : Nat}

/-- The pass is at the node: the tree is balanced, has these elements, and the place is that of the key. -/
structure Seated (key : PsmAddress → κ) (k : κ) (E : List (Nat × PsmAddress)) (fs : Path) (t : RbTree)
    (s : InsertPass) : Prop where
  holds : Holds s.nodes fs t
  node : s.node = root t
  walk : (plug fs t).walk .right = E
  balanced : ∃ n, Balanced n (plug fs t)
  located : Located key k fs

/-- The pass has just come down to the node. -/
structure Entered (key : PsmAddress → κ) (k : κ) (E : List (Nat × PsmAddress)) (fs : Path) (t : RbTree)
    (s : InsertPass) : Prop extends Seated key k E fs t s where
  parent : s.parent = top fs
  direction : fs ≠ [] → s.direction = topDir fs

theorem Entered.at (h : Entered key k E fs t s) : At fs t s := ⟨h.holds, h.node, h.parent⟩

theorem Seated.node_data {d : Dir} {a : Nat} {red : Bool} {x : PsmAddress} {near far : RbTree}
    (h : Seated key k E fs (branch d a red x near far) s) : (s.nodes s.node).data = x := by
  rw [h.node, root_branch, (cell_of_holds h.holds).2]

theorem Seated.mem {d : Dir} {a : Nat} {red : Bool} {x : PsmAddress} {near far : RbTree}
    (h : Seated key k E fs (branch d a red x near far) s) : x ∈ E.map Prod.snd := by
  have hmem : (a, x) ∈ (branch d a red x near far).walk .right :=
    (walk_perm d .right _).mem_iff.mp (by simp)
  rw [← h.walk, walk_plug]
  exact List.mem_map.mpr ⟨(a, x), by simp [hmem], rfl⟩

theorem descend_entered (hc : Compares compare key) (hsorted : Ascending key E) {a : Nat} {red : Bool}
    {x : PsmAddress} {near far : RbTree} (h : Seated key k E fs (branch (branchTo compare k x) a red x near far) s) :
    Entered key k E (⟨branchTo compare k x, a, red, x, far⟩ :: fs) near (descend compare k s) := by
  have hnode : s.node = a := by rw [h.node, root_branch]
  have hx := h.node_data
  rw [hnode] at hx
  refine ⟨⟨holds_branch.mp h.holds, ?_, h.walk, h.balanced, ?_⟩, hnode, fun _ => ?_⟩
  · simp only [descend, hnode, hx]
    exact child_near h.holds
  · apply h.located.descend hc
    rw [h.walk]
    exact hsorted
  · simp only [descend, hnode, hx, topDir_cons]

/-- A round that finds nothing to do goes one node further down. -/
theorem round_descends {s₁ s₂ : InsertPass} (h₁ : placeOrFlip newNode data s = some s₁)
    (h₂ : fixViolation s₁ = some s₂) (hdata : data ∉ E.map Prod.snd) (hseat : Seated key k E fs t s₂)
    (ht : t ≠ nil) : insertRound compare k newNode data s = .inl (descend compare k s₂) := by
  obtain ⟨a, red, x, near, far, rfl⟩ := exists_branch .left ht
  have hne : (s₂.nodes s₂.node).data ≠ data := by
    rw [hseat.node_data]
    exact ne_of_mem_of_not_mem hseat.mem hdata
  simp [insertRound, h₁, h₂, hne]

/-- A black node whose children are not both red: no colours change there. -/
structure Quiet (t : RbTree) : Prop where
  ne_nil : t ≠ nil
  black : t.isRed = false
  kids : ¬ ((t.kid .left).isRed = true ∧ (t.kid .right).isRed = true)

/-- Every pointer is up to date, and the uncle of a red node is black. -/
structure Ready (key : PsmAddress → κ) (k : κ) (E : List (Nat × PsmAddress)) (fs : Path) (t : RbTree)
    (s : InsertPass) : Prop extends Entered key k E fs t s where
  grandparent : s.grandparent = top fs.tail
  greatgrandparentPtr : s.greatgrandparentPtr = top fs.tail.tail
  prevDirection : ∀ g ∈ fs.tail.head?, s.prevDirection = g.dir
  atRoot : fs = [] → t ≠ nil ∧ t.isRed = false
  uncle : ∀ f r, fs = f :: r → f.isRed = true → ∃ g r', r = g :: r' ∧ g.sib.isRed = false
  sibling : ∀ f r, fs = f :: r → t.isRed = true → f.sib.isRed = false

/-- After a change of colours the great-grandparent may be out of date, but nothing is to be done. -/
structure Settling (key : PsmAddress → κ) (k : κ) (E : List (Nat × PsmAddress)) (fs : Path) (t : RbTree)
    (s : InsertPass) : Prop extends Entered key k E fs t s where
  ne_nil : fs ≠ []
  grandparent : s.grandparent = top fs.tail
  greatgrandparentPtr : fs.tail = [] → s.greatgrandparentPtr = 0
  quiet : Quiet t

/-- After two rotations the grandparent is out of date as well; the node is red, its parent is
not, and the search goes on at a node of the kind that follows a change of colours. -/
structure Rotated (compare : PsmAddress → κ → Int) (key : PsmAddress → κ) (k : κ)
    (E : List (Nat × PsmAddress)) (fs : Path) (t : RbTree) (s : InsertPass) : Prop
    extends Entered key k E fs t s where
  ne_nil : fs ≠ []
  grandparent : s.grandparent ≠ 0
  parentBlack : ∀ f ∈ fs.head?, f.isRed = false
  next : ∃ a x near far, t = branch (branchTo compare k x) a true x near far ∧ Quiet near

/-- Below a red parent there is no red node. -/
theorem not_red_below {red : Bool} (h : BalancedCtx n red fs) (hf : ∀ f ∈ fs.head?, f.isRed = true) (hne : fs ≠ []) :
    red = false := by
  cases h with
  | nil => exact absurd rfl hne
  | red => rfl
  | black => simp at hf

theorem top_eq_zero {nodes : Partition} (h : Holds nodes fs t) : top fs = 0 ↔ fs = [] := by
  constructor
  · intro h0
    by_contra hne
    exact h.ctx.ne_zero (top_mem hne) h0
  · rintro rfl
    rfl

theorem top_tail_eq_zero {nodes : Partition} (h : Holds nodes fs t) : top fs.tail = 0 ↔ fs.tail = [] := by
  cases fs with
  | nil => simp
  | cons f fs => exact top_eq_zero (holds_fill.mpr h)

@[simp] theorem flipped_branch {d : Dir} {a : Nat} {red : Bool} {x : PsmAddress} {near far : RbTree} :
    flipped (branch d a red x near far) = branch d a true x (near.paint false) (far.paint false) := by
  cases d <;> rfl

@[simp] theorem walk_flipped (e : Dir) (t : RbTree) : (flipped t).walk e = t.walk e := by
  cases t with
  | nil => rfl
  | node a red x l r => cases e <;> simp [flipped, Tree.walk]

@[simp] theorem kid_flipped (d : Dir) (t : RbTree) : (flipped t).kid d = (t.kid d).paint false := by
  cases t with
  | nil => rfl
  | node a red x l r => cases d <;> rfl

theorem wayDown_flipped {κ : Type} {compare : PsmAddress → κ → Int} {k : κ} (t : RbTree) :
    wayDown compare k (flipped t) = wayDown compare k t := by
  cases t with
  | nil => rfl
  | node a red x l r => simp [flipped, wayDown]

/-- An exchange of colours leaves the heights as they are. -/
theorem flipped_balanced (h : Balanced n t) (hl : (t.kid .left).isRed = true) (hr : (t.kid .right).isRed = true) :
    Balanced n (flipped t) := by
  cases h with
  | nil => cases hl
  | red _ _ hlb _ => exact absurd (hlb.symm.trans hl) (by decide)
  | black hbl hbr => exact Balanced.red (hbl.paint_black hl) (hbr.paint_black hr) isRed_paint_black isRed_paint_black

theorem quiet_paint (h : Balanced n t) (hred : t.isRed = true) : Quiet (t.paint false) := by
  obtain ⟨a, red, x, near, far, rfl⟩ := exists_branch .left (ne_nil_of_isRed hred)
  have hleft := (h.kid hred .left).2
  refine ⟨by simp, by simp, ?_⟩
  rintro ⟨hl, -⟩
  rw [paint_branch, kid_branch] at hl
  rw [kid_branch, hl] at hleft
  cases hleft

/-- The parent in the place of the grandparent, which is below it on the other side. -/
def straightened (f g : Frame Nat PsmAddress) : Frame Nat PsmAddress :=
  ⟨g.dir, f.addr, false, f.data, branch g.dir g.addr true g.data f.sib g.sib⟩

/-- The node in the place of the grandparent, with the two nodes above it below. -/
def bent (f g : Frame Nat PsmAddress) (q : Nat) (qx : PsmAddress) (far orphan : RbTree) : RbTree :=
  branch f.dir q false qx (branch f.dir g.addr true g.data g.sib far)
    (branch f.dir f.addr true f.data orphan f.sib)

theorem rest_straightened (d : Dir) (hdir : f.dir = g.dir) :
    rest d (straightened f g :: r) = rest d (f :: g :: r) := by
  by_cases hd : g.dir = d
  · simp [rest, straightened, hdir, hd]
  · obtain rfl : g.dir.other = d := by rw [Dir.eq_other_of_ne hd, Dir.other_other]
    have hw : (branch g.dir g.addr true g.data f.sib g.sib).walk g.dir.other =
        f.sib.walk g.dir.other ++ (g.addr, g.data) :: g.sib.walk g.dir.other := by
      rw [branch_swap, walk_branch]
    simp [rest, straightened, hdir, hw]

theorem walk_straightened (d : Dir) (hdir : f.dir = g.dir) :
    (plug (straightened f g :: r) t).walk d = (plug (f :: g :: r) t).walk d := by
  rw [walk_plug, walk_plug, rest_straightened d hdir, rest_straightened d.other hdir]

theorem walk_bent {q : Nat} {qx : PsmAddress} {far orphan : RbTree} (d : Dir) (hdir : f.dir = g.dir.other) :
    (plug r (bent f g q qx far orphan)).walk d =
      (plug (f :: g :: r) (branch f.dir q true qx far orphan)).walk d := by
  rw [plug_cons, plug_cons]
  apply walk_plug_congr
  intro e
  have hg : g.dir = f.dir.other := by rw [hdir, Dir.other_other]
  by_cases he : e = f.dir
  · subst he
    simp [bent, Frame.fill, hg]
  · rw [Dir.eq_other_of_ne he, walk_other, walk_other]
    simp [bent, Frame.fill, hg]

theorem balanced_straightened (hf : f.isRed = true) (ht : Balanced n t) (hctx : BalancedCtx n false (f :: g :: r))
    (huncle : g.sib.isRed = false) : ∃ m, Balanced m (plug (straightened f g :: r) t) := by
  obtain ⟨-, hfsib, hgctx⟩ := hctx.frame_red hf
  obtain ⟨hgsib, hr⟩ := hgctx.frame_black hgctx.head_black
  rw [exists_balanced_plug]
  exact ⟨n, ht, balancedCtx_black.mpr ⟨balanced_red.mpr ⟨hfsib, hgsib, huncle⟩, hr⟩⟩

theorem balanced_bent {q : Nat} {qx : PsmAddress} {far orphan : RbTree} (hf : f.isRed = true)
    (ht : Balanced n (branch f.dir q true qx far orphan)) (hctx : BalancedCtx n false (f :: g :: r))
    (huncle : g.sib.isRed = false) : ∃ m, Balanced m (plug r (bent f g q qx far orphan)) := by
  obtain ⟨-, hfsib, hgctx⟩ := hctx.frame_red hf
  obtain ⟨hgsib, hr⟩ := hgctx.frame_black hgctx.head_black
  obtain ⟨hfar, horphan⟩ := balanced_red.mp ht
  rw [exists_balanced_plug]
  refine ⟨n + 1, ?_, ?_⟩
  · exact balanced_black.mpr ⟨balanced_red.mpr ⟨⟨hgsib, huncle⟩, hfar⟩, balanced_red.mpr ⟨horphan, hfsib⟩⟩
  · rw [bent, isRed_branch]
    exact hr

/-- The node has come to the top: its parent and its grandparent are below it, red, and the search
comes back to the child of the node that it was to go to. -/
structure Bent (compare : PsmAddress → κ → Int) (key : PsmAddress → κ) (k : κ)
    (E : List (Nat × PsmAddress)) (t : RbTree) (r : Path) (f g : Frame Nat PsmAddress) (s : InsertPass) : Prop where
  parent : s.parent ≠ 0
  parentDir : branchTo compare k f.data = f.dir
  grandparentDir : branchTo compare k g.data = f.dir.other
  top : ∃ q qx far orphan, t = branch f.dir q true qx far orphan ∧
    Seated key k E r (bent f g q qx far orphan) s

/-- A red node among frames that fit a black one: the parent is black, or a rotation mends it. -/
theorem fix_spec (hc : Compares compare key) (hat : At fs t s) (hred : t.isRed = true) (hbal : Balanced n t)
    (hctx : BalancedCtx n false fs) (hwalk : (plug fs t).walk .right = E) (hloc : Located key k fs)
    (hdir : fs ≠ [] → s.direction = topDir fs) (hgrand : s.grandparent = top fs.tail)
    (hgreat : s.greatgrandparentPtr = top fs.tail.tail) (hprev : ∀ g ∈ fs.tail.head?, s.prevDirection = g.dir)
    (huncle : ∀ f r, fs = f :: r → f.isRed = true → ∃ g r', r = g :: r' ∧ g.sib.isRed = false) :
    ∃ s₂, fixViolation s = some s₂ ∧
      ((∃ fs', Entered key k E fs' t s₂ ∧ (fs' = [] → s₂.grandparent = 0 ∧ s₂.greatgrandparentPtr = 0)) ∨
        ∃ r f g, Bent compare key k E t r f g s₂) := by
  by_cases hblack : ∀ f ∈ fs.head?, f.isRed = false
  · have hbalanced := exists_balanced_plug.mpr ⟨n, hbal, hred ▸ hctx.of_black hblack⟩
    refine ⟨s, keep_fixViolation hat (Or.inr hblack), Or.inl ⟨fs, ?_, ?_⟩⟩
    · exact ⟨⟨hat.holds, hat.node, hwalk, hbalanced, hloc⟩, hat.parent, hdir⟩
    · rintro rfl
      exact ⟨hgrand, hgreat⟩
  · -- the parent is red, so there is a black grandparent above it, and a black uncle
    cases fs with
    | nil => simp at hblack
    | cons f fs =>
      have hf : f.isRed = true := by simpa using hblack
      obtain ⟨g, r, rfl, hg⟩ := huncle f fs rfl hf
      have hv : Violation f g r t s := ⟨hat, hf, hred, hgrand, hgreat, hprev g rfl⟩
      by_cases hd : f.dir = g.dir
      · obtain ⟨s₂, hfix, hat₂, hs₂⟩ := fix_straight hv hd
        have hloc₂ : Located key k (straightened f g :: r) := by
          constructor
          · rw [rest_straightened .left hd]
            exact hloc.before
          · rw [rest_straightened .right hd]
            exact hloc.after
        have hwalk₂ : (plug (straightened f g :: r) t).walk .right = E := by
          rw [walk_straightened .right hd]
          exact hwalk
        refine ⟨s₂, hfix, Or.inl ⟨straightened f g :: r, ⟨⟨hat₂.holds, hat₂.node, hwalk₂, ?_, hloc₂⟩, hat₂.parent, ?_⟩,
          by simp⟩⟩
        · exact balanced_straightened hf hbal hctx hg
        · intro _
          rw [hs₂]
          exact (hdir (by simp)).trans hd
      · have hd' : f.dir = g.dir.other := Dir.eq_other_of_ne hd
        obtain ⟨q, red, qx, far, orphan, rfl⟩ := exists_branch f.dir (ne_nil_of_isRed hred)
        obtain rfl : red = true := by simpa using hred
        obtain ⟨s₂, hfix, hholds, hs₂⟩ := fix_bent rfl hv hd'
        have hnode : s₂.node = root (bent f g q qx far orphan) := by
          rw [hs₂, bent, root_branch]
          exact hat.node.trans root_branch
        have hwalk₂ : (plug r (bent f g q qx far orphan)).walk .right = E := by
          rw [walk_bent .right hd']
          exact hwalk
        refine ⟨s₂, hfix, Or.inr ⟨r, f, g, ?_, hloc.dir hc, ?_, q, qx, far, orphan, rfl, hholds, hnode, hwalk₂, ?_, ?_⟩⟩
        · rw [hs₂]
          exact fun h0 => hat.holds.ctx.1 (hat.parent.symm.trans h0)
        · rw [hloc.tail.dir hc, hd', Dir.other_other]
        · exact balanced_bent hf hbal hctx hg
        · exact hloc.tail.tail

variable (hc : Compares compare key) (hsorted : Ascending key E) (hdata : data ∉ E.map Prod.snd)

include hc hsorted hdata

/-- Where no colours change and nothing is red below red, the pass goes on with its pointers up to date. -/
theorem ready_descends (h : Entered key k E fs t s) (ht : t ≠ nil)
    (hkids : ¬ ((t.kid .left).isRed = true ∧ (t.kid .right).isRed = true))
    (hfix : fixViolation s = some s) (hgrand : s.grandparent = top fs.tail)
    (hgreat : fs.tail = [] → s.greatgrandparentPtr = 0)
    (huncle : t.isRed = true → ∃ g r, fs = g :: r ∧ g.sib.isRed = false) :
    ∃ fs' u, insertRound compare k newNode data s = .inl (descend compare k s) ∧
      Ready key k E fs' u (descend compare k s) ∧ wayDown compare k t = wayDown compare k u + 1 := by
  have hround : insertRound compare k newNode data s = .inl (descend compare k s) :=
    round_descends (keep_placeOrFlip h.at ht hkids) hfix hdata h.toSeated ht
  obtain ⟨d, hd⟩ : ∃ d, d = branchTo compare k (s.nodes s.node).data := ⟨_, rfl⟩
  obtain ⟨a, red, x, near, far, rfl⟩ := exists_branch d ht
  rw [h.node_data] at hd
  have hboth : ¬ (near.isRed = true ∧ far.isRed = true) := by
    cases d
    · exact hkids
    · exact fun hb => hkids hb.symm
  subst hd
  refine ⟨_, near, hround, ⟨descend_entered hc hsorted h.toSeated, ?_, ?_, ?_, ?_, ?_, ?_⟩, wayDown_branch rfl⟩
  · exact h.parent
  · simp only [descend, List.tail_cons, hgrand, top_tail_eq_zero h.holds]
    split
    · rename_i h0
      rw [h0, hgreat h0, top_nil]
    · rfl
  · intro g hg
    cases fs with
    | nil => cases hg
    | cons f fs =>
      obtain rfl := Option.some.inj hg
      exact h.direction (by simp)
  · intro h0
    cases h0
  · intro f r hf hred
    obtain ⟨rfl, rfl⟩ := List.cons.inj hf
    exact huncle (by simpa using hred)
  · intro f r hf hred
    obtain ⟨rfl, rfl⟩ := List.cons.inj hf
    exact eq_false_of_ne_true (fun hfar => hboth ⟨hred, hfar⟩)

theorem settling_round (newNode : PsmAddress) (h : Settling key k E fs t s) :
    ∃ fs' u, insertRound compare k newNode data s = .inl (descend compare k s) ∧
      Ready key k E fs' u (descend compare k s) ∧ wayDown compare k t = wayDown compare k u + 1 := by
  apply ready_descends hc hsorted hdata h.toEntered h.quiet.ne_nil h.quiet.kids
  · exact keep_fixViolation h.at (Or.inl h.quiet.black)
  · exact h.grandparent
  · exact h.greatgrandparentPtr
  · intro hred
    rw [h.quiet.black] at hred
    cases hred

theorem rotated_round (newNode : PsmAddress) (h : Rotated compare key k E fs t s) :
    ∃ fs' u, insertRound compare k newNode data s = .inl (descend compare k s) ∧
      Settling key k E fs' u (descend compare k s) ∧ wayDown compare k t = wayDown compare k u + 1 := by
  obtain ⟨a, x, near, far, rfl, hquiet⟩ := h.next
  obtain ⟨m, hbal, -⟩ := exists_balanced_plug.mp h.balanced
  have hkids : ¬ (((branch (branchTo compare k x) a true x near far).kid .left).isRed = true ∧
      ((branch (branchTo compare k x) a true x near far).kid .right).isRed = true) := by
    rintro ⟨hl, -⟩
    rw [(hbal.kid isRed_branch .left).2] at hl
    cases hl
  have hround : insertRound compare k newNode data s = .inl (descend compare k s) :=
    round_descends (keep_placeOrFlip h.at branch_ne_nil hkids) (keep_fixViolation h.at (Or.inr h.parentBlack))
      hdata h.toSeated branch_ne_nil
  refine ⟨_, near, hround, ⟨descend_entered hc hsorted h.toSeated, by simp, h.parent, ?_, hquiet⟩, wayDown_branch rfl⟩
  intro h0
  exact absurd h0 h.ne_nil

/-- A round in which no colours change. -/
theorem ready_round_keeps (newNode : PsmAddress) (h : Ready key k E fs t s) (ht : t ≠ nil)
    (hkids : ¬ ((t.kid .left).isRed = true ∧ (t.kid .right).isRed = true)) :
    ∃ fs' u, insertRound compare k newNode data s = .inl (descend compare k s) ∧
      Ready key k E fs' u (descend compare k s) ∧ wayDown compare k t = wayDown compare k u + 1 := by
  obtain ⟨m, hbal, hctx⟩ := exists_balanced_plug.mp h.balanced
  apply ready_descends hc hsorted hdata h.toEntered ht hkids
  · apply keep_fixViolation h.at
    cases hred : t.isRed with
    | false => exact Or.inl rfl
    | true =>
      right
      intro f hf
      by_contra hne
      cases fs with
      | nil => cases hf
      | cons g fs =>
        obtain rfl := Option.some.inj hf
        have hblack := not_red_below hctx (by simpa using hne) (by simp)
        rw [hred] at hblack
        cases hblack
  · exact h.grandparent
  · intro h0
    rw [h.greatgrandparentPtr, h0]
    rfl
  · intro hred
    cases fs with
    | nil =>
      rw [(h.atRoot rfl).2] at hred
      cases hred
    | cons f fs => exact ⟨f, fs, rfl, h.sibling f fs rfl hred⟩

/-- A round in which the node hands its colour to its children. -/
theorem ready_round_flips (newNode : PsmAddress) (h : Ready key k E fs t s) (hl : (t.kid .left).isRed = true)
    (hr : (t.kid .right).isRed = true) :
    ∃ s₂ fs' u, insertRound compare k newNode data s = .inl (descend compare k s₂) ∧
      ((Settling key k E fs' u (descend compare k s₂) ∧ wayDown compare k u < wayDown compare k t) ∨
        (Rotated compare key k E fs' u (descend compare k s₂) ∧ wayDown compare k u ≤ wayDown compare k t)) := by
  obtain ⟨m, hbal, hctx⟩ := exists_balanced_plug.mp h.balanced
  obtain ⟨s₁, hflip, hat, hs₁⟩ := flip_holds newNode data h.at hl hr
  have hred : (flipped t).isRed = true := by
    cases t with
    | nil => cases hl
    | node => rfl
  have hwalk : (plug fs (flipped t)).walk .right = E := by
    rw [walk_plug_congr (fun e => walk_flipped e t)]
    exact h.walk
  have hquiet : ∀ d, Quiet ((flipped t).kid d) := by
    intro d
    obtain ⟨j, hkid⟩ := hbal.exists_kid d
    rw [kid_flipped]
    apply quiet_paint hkid
    cases d <;> assumption
  have hfixed := fix_spec hc hat hred (flipped_balanced hbal hl hr) hctx.weaken hwalk h.located
    (by rw [hs₁]; exact h.direction) (by rw [hs₁]; exact h.grandparent)
    (by rw [hs₁]; exact h.greatgrandparentPtr) (by rw [hs₁]; exact h.prevDirection) h.uncle
  rw [← wayDown_flipped t]
  generalize flipped t = t' at hquiet hfixed hred
  obtain ⟨s₂, hfix, ⟨fs', hent, hroot⟩ | ⟨r, f, g, hbent⟩⟩ := hfixed
  · obtain ⟨d, hd⟩ : ∃ d, d = branchTo compare k (s₂.nodes s₂.node).data := ⟨_, rfl⟩
    obtain ⟨a, red, x, near, far, rfl⟩ := exists_branch d (ne_nil_of_isRed hred)
    have hround : insertRound compare k newNode data s = .inl (descend compare k s₂) :=
      round_descends hflip hfix hdata hent.toSeated branch_ne_nil
    rw [hent.node_data] at hd
    subst hd
    have hnear := hquiet (branchTo compare k x)
    rw [kid_branch] at hnear
    refine ⟨s₂, _, near, hround, Or.inl ⟨⟨descend_entered hc hsorted hent.toSeated, by simp, hent.parent, ?_, hnear⟩, ?_⟩⟩
    · intro h0
      obtain ⟨hg, hgg⟩ := hroot h0
      simp [descend, hg, hgg]
    · rw [wayDown_branch rfl]
      exact Nat.lt_succ_self _
  · obtain ⟨q, qx, far, orphan, rfl, hseat⟩ := hbent.top
    have hround : insertRound compare k newNode data s = .inl (descend compare k s₂) :=
      round_descends hflip hfix hdata hseat branch_ne_nil
    by_cases hd : branchTo compare k qx = f.dir
    · have hfar := hquiet f.dir
      rw [kid_branch] at hfar
      rw [bent, ← hd] at hseat
      have hent := descend_entered hc hsorted hseat
      have hnext : branch (branchTo compare k qx) g.addr true g.data g.sib far =
          branch (branchTo compare k g.data) g.addr true g.data far g.sib := by
        rw [hbent.grandparentDir, branch_other, hd]
      refine ⟨s₂, _, _, hround, Or.inr ⟨⟨hent, by simp, hbent.parent, by simp, _, _, _, _, hnext, hfar⟩, ?_⟩⟩
      apply Nat.le_of_eq
      rw [hnext, wayDown_branch rfl, wayDown_branch hd]
    · have hd' : branchTo compare k qx = f.dir.other := Dir.eq_other_of_ne hd
      have horphan := hquiet f.dir.other
      rw [kid_branch_other] at horphan
      rw [bent, branch_swap, ← hd'] at hseat
      have hent := descend_entered hc hsorted hseat
      have hnext : branch f.dir f.addr true f.data orphan f.sib =
          branch (branchTo compare k f.data) f.addr true f.data orphan f.sib := by
        rw [hbent.parentDir]
      refine ⟨s₂, _, _, hround, Or.inr ⟨⟨hent, by simp, hbent.parent, by simp, _, _, _, _, hnext, horphan⟩, ?_⟩⟩
      apply Nat.le_of_eq
      rw [hnext, wayDown_branch rfl, branch_swap, wayDown_branch hd']

omit hsorted hdata

/-- What the pass leaves: a balanced tree that has the new element between those with lesser keys
and the others. -/
structure Inserted (key : PsmAddress → κ) (k : κ) (E : List (Nat × PsmAddress)) (newNode data : PsmAddress)
    (s : InsertPass) : Prop where
  node : s.node = newNode
  tree : ∃ t A B, Holds s.nodes [] t ∧ (∃ n, Balanced n t) ∧ E = A ++ B ∧
    t.walk .right = A ++ (newNode, data) :: B ∧ (∀ a ∈ A, key a.2 < k) ∧ ∀ b ∈ B, k ≤ key b.2

/-- The round that puts the new node in its place. -/
theorem ready_round_places (hnew : newNode ≠ 0) (hfresh : newNode ∉ E.map Prod.fst)
    (h : Ready key k E fs nil s) :
    ∃ s₂, insertRound compare k newNode data s = .inr (some s₂) ∧ Inserted key k E newNode data s₂ := by
  have hfs : fs ≠ [] := fun h0 => (h.atRoot h0).1 rfl
  have hE : E = (rest .left fs).reverse ++ rest .right fs := by
    rw [← h.walk, walk_plug, walk_nil, List.append_nil]
    rfl
  have hctxfresh : newNode ∉ ctxAddrs fs := by
    intro hmem
    apply hfresh
    rw [hE, List.map_append, List.map_reverse]
    simpa [ctxAddrs] using hmem
  obtain ⟨s₁, hplace, hat, hs₁⟩ := place_holds h.at hfs (h.direction hfs) hnew hctxfresh
  obtain ⟨m, hbal, hctx⟩ := exists_balanced_plug.mp h.balanced
  obtain rfl := balanced_nil.mp hbal
  have hwalk : (plug fs (branch .left newNode true data nil nil)).walk .right =
      (rest .left fs).reverse ++ (newNode, data) :: rest .right fs := by
    rw [walk_plug]
    simp [branch, walk]
  obtain ⟨s₂, hfix, hmoved⟩ := fix_spec hc hat isRed_branch (by simp) hctx hwalk h.located
    (by rw [hs₁]; exact h.direction) (by rw [hs₁]; exact h.grandparent)
    (by rw [hs₁]; exact h.greatgrandparentPtr) (by rw [hs₁]; exact h.prevDirection) h.uncle
  -- wherever the node ends up, it is the node of the pass
  have hseat : ∃ r t, Seated key k ((rest .left fs).reverse ++ (newNode, data) :: rest .right fs) r t s₂ ∧
      root t = newNode ∧ (s₂.nodes s₂.node).data = data := by
    obtain ⟨fs', hent, -⟩ | ⟨r, f, g, hbent⟩ := hmoved
    · exact ⟨fs', _, hent.toSeated, root_branch, hent.node_data⟩
    · obtain ⟨q, qx, far, orphan, he, hseat⟩ := hbent.top
      have hmem : (q, qx) ∈ (branch .left newNode true data nil nil).walk f.dir := by
        rw [he]
        simp
      have hmem' := (walk_perm f.dir .right _).mem_iff.mp hmem
      obtain ⟨rfl, rfl⟩ : q = newNode ∧ qx = data := by simpa [branch, walk] using hmem'
      exact ⟨r, _, hseat, root_branch, hseat.node_data⟩
  obtain ⟨r, t, hseat, hroot, hdata⟩ := hseat
  refine ⟨s₂, ?_, hseat.node.trans hroot, plug r t, _, _, holds_plug.mpr hseat.holds, hseat.balanced, hE, hseat.walk,
    ?_, h.located.after⟩
  · simp [insertRound, hplace, hfix, hdata]
  · intro a ha
    exact h.located.before a (List.mem_reverse.mp ha)

include hsorted hdata

/-- The pass puts the node in its place, whichever pointers are out of date meanwhile. -/
theorem insert_pass (hnew : newNode ≠ 0) (hfresh : newNode ∉ E.map Prod.fst) (h : Ready key k E fs t s)
    (fuel : Nat) (hfuel : 2 * wayDown compare k t + 1 < fuel) :
    ∃ s₂, Runs.loop (insertRound compare k newNode data) fuel s = some (some s₂) ∧
      Inserted key k E newNode data s₂ := by
  -- a round lowers the bound by the node passed, or, after two rotations, by the change of phase
  have hend : ∃ s₂, Runs.loop (insertRound compare k newNode data) fuel s = some s₂ ∧
      ∃ s₃, s₂ = some s₃ ∧ Inserted key k E newNode data s₃ := by
    apply Runs.loop_bounded (fun n s => ∃ fs t, (Ready key k E fs t s ∧ n = 2 * wayDown compare k t + 1) ∨
      (Settling key k E fs t s ∧ n = 2 * wayDown compare k t) ∨
      (Rotated compare key k E fs t s ∧ n = 2 * wayDown compare k t)) _ _ _ s ⟨fs, t, Or.inl ⟨h, rfl⟩⟩ fuel hfuel
    rintro n s ⟨fs, t, ⟨h, rfl⟩ | ⟨h, rfl⟩ | ⟨h, rfl⟩⟩
    · by_cases ht : t = nil
      · subst ht
        obtain ⟨s₂, hround, hins⟩ := ready_round_places hc hnew hfresh h
        exact Or.inr ⟨_, hround, s₂, rfl, hins⟩
      · by_cases hkids : (t.kid .left).isRed = true ∧ (t.kid .right).isRed = true
        · obtain ⟨s₂, fs', u, hround, ⟨hset, hlt⟩ | ⟨hrot, hle⟩⟩ :=
            ready_round_flips hc hsorted hdata newNode h hkids.1 hkids.2
          · exact Or.inl ⟨_, _, hround, ⟨fs', u, Or.inr (Or.inl ⟨hset, rfl⟩)⟩, by omega⟩
          · exact Or.inl ⟨_, _, hround, ⟨fs', u, Or.inr (Or.inr ⟨hrot, rfl⟩)⟩, by omega⟩
        · obtain ⟨fs', u, hround, hready, hway⟩ :=
            ready_round_keeps hc hsorted hdata newNode h ht hkids
          exact Or.inl ⟨_, _, hround, ⟨fs', u, Or.inl ⟨hready, rfl⟩⟩, by omega⟩
    · obtain ⟨fs', u, hround, hready, hway⟩ := settling_round hc hsorted hdata newNode h
      exact Or.inl ⟨_, _, hround, ⟨fs', u, Or.inl ⟨hready, rfl⟩⟩, by omega⟩
    · obtain ⟨fs', u, hround, hset, hway⟩ := rotated_round hc hsorted hdata newNode h
      exact Or.inl ⟨_, _, hround, ⟨fs', u, Or.inr (Or.inl ⟨hset, rfl⟩)⟩, by omega⟩
  obtain ⟨_, hrun, s₃, rfl, hins⟩ := hend
  exact ⟨s₃, hrun, hins⟩

omit hsorted hdata

/-- An insertion of a key that is not present, at an address that is not in use. -/
theorem smRbtInsert_spec {rbt : SmRbt} (h : Sound key rbt t) (hnew : newNode ≠ 0)
    (hfresh : newNode ∉ rbt.allocated) (habsent : ∀ a ∈ t.walk .right, key a.2 ≠ key data) :
    ∃ rbt' t', smRbtInsert compare (key data) rbt newNode data = some (rbt', newNode) ∧ Sound key rbt' t' ∧
      ∃ A B, t.walk .right = A ++ B ∧ t'.walk .right = A ++ (newNode, data) :: B ∧
        (∀ a ∈ A, key a.2 < key data) ∧ ∀ b ∈ B, key data < key b.2 := by
  rw [h.allocated.mem_iff] at hfresh
  by_cases hnil : t = nil
  · subst hnil
    refine ⟨_, branch .left newNode false data nil nil, by rw [smRbtInsert, if_pos (h.nil_iff.mpr rfl)],
      ⟨?_, ?_, ?_, ?_, ?_, ?_, ?_, ?_⟩, [], [], rfl, ?_, by simp, by simp⟩
    · rw [repr_branch]
      refine ⟨hnew, ?_, trivial, trivial⟩
      simp only [createNode, Function.update_self, root_nil]
      rw [← links_swap (d := .left), Dir.other_left]
    · simp [addrs, branch, walk]
    · simp
    · simp [Ascending, branch, walk]
    · exact ⟨1, balanced_black.mpr ⟨Balanced.nil, Balanced.nil⟩⟩
    · simp
    · simp [branch, walk]
    · have hempty : rbt.allocated = [] := h.allocated.eq_nil
      simp [hempty, addrs, branch, walk]
    · simp [branch, walk]
  · have hstart : Ready key (key data) (t.walk .right) [] t (insertStart rbt) := by
      refine ⟨⟨⟨h.holds, h.root, rfl, h.balanced, located_nil _⟩, rfl, by simp⟩, rfl, rfl, by simp, ?_, by simp, by simp⟩
      intro _
      exact ⟨hnil, h.black⟩
    have hdata : data ∉ (t.walk .right).map Prod.snd := by
      intro hmem
      obtain ⟨a, ha, he⟩ := List.mem_map.mp hmem
      exact habsent a ha (by rw [he])
    have hway := wayDown_le compare (key data) t
    obtain ⟨s, hloop, hnode, t', A, B, hholds, hbal, hE, hwalk, hA, hB⟩ :=
      insert_pass hc h.ascending hdata hnew hfresh hstart (2 * rbt.length + 2) (by rw [h.length]; omega)
    have hB' : ∀ b ∈ B, key data < key b.2 := by
      intro b hb
      have hne := habsent b (by rw [hE]; exact List.mem_append_right A hb)
      exact lt_of_le_of_ne (hB b hb) (Ne.symm hne)
    have hasc : Ascending key (t'.walk .right) := by
      rw [hwalk]
      exact ascending_insert (hE ▸ h.ascending) hA hB'
    have hperm : (t'.walk .right).Perm ((newNode, data) :: t.walk .right) := by
      rw [hwalk, hE]
      exact List.perm_middle
    have hlen : rbt.length + 1 = (t'.walk .right).length := by
      rw [hperm.length_eq, h.length]
      rfl
    have halloc : (newNode :: rbt.allocated).Perm t'.addrs :=
      (h.allocated.cons newNode).trans (hperm.map Prod.fst).symm
    have hrun : smRbtInsert compare (key data) rbt newNode data =
        some (finish s.nodes (rbt.length + 1) (newNode :: rbt.allocated), newNode) := by
      rw [smRbtInsert, if_neg (mt h.nil_iff.mp hnil), hloop]
      simp only [Option.join_some, Option.map_some, hnode]
    refine ⟨_, t'.paint false, hrun, sound_finish hholds hbal hasc hlen halloc, A, B, hE, ?_, hA, hB'⟩
    rw [walk_paint]
    exact hwalk

end SmrbtInsert
