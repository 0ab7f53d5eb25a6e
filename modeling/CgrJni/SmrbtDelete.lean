import CgrJni.SmrbtOrder

/-!
Deletion, one pass from the root down that keeps the node it is at, or the next
one, red, so that the node unlinked at the end is a leaf that may go.
-/

namespace SmrbtDelete

open RedBlack RedBlack.Tree LinkedTree Smrbt SmrbtMoves SmrbtOrder

variable {κ : Type} [LinearOrder κ] {compare : PsmAddress → κ → Int} {key : PsmAddress → κ} {k : κ}
variable {E : List (Nat × PsmAddress)} {fs r : Path} {f : Frame Nat PsmAddress} {t u : RbTree} {n : Nat}
variable {s : DeletePass}

/-- The node above is red or the next one is, or the root alone is above and its other child is black. -/
def Loose (fs : Path) (t : RbTree) : Prop :=
  ∀ f r, fs = f :: r → f.isRed = true ∨ t.isRed = true ∨ (r = [] ∧ f.sib.isRed = false)

/-- The target is the first element after the place that has the key, if there is one. -/
def Targeted (key : PsmAddress → κ) (k : κ) (fs : Path) (target : PsmAddress) : Prop :=
  (target = 0 ∧ ∀ a ∈ rest .right fs, key a.2 ≠ k) ∨
    ∃ x l, rest .right fs = (target, x) :: l ∧ key x = k

/-- What the node above is, when the pass is about to go down to the place. -/
structure Passing (key : PsmAddress → κ) (k : κ) (E : List (Nat × PsmAddress)) (fs : Path) (t : RbTree)
    (s : DeletePass) : Prop where
  holds : Holds s.nodes fs t
  node : s.node = top fs
  parentPtr : ∀ f r, fs = f :: r → s.parentPtr = some (top r)
  direction : s.direction = topDir fs
  walk : (plug fs t).walk .right = E
  balanced : ∃ n, Balanced n (plug fs t)
  located : Located key k fs
  loose : Loose fs t
  targeted : Targeted key k fs s.target

/-- The place one step further down, whatever happened above it. -/
theorem passing_of_rest (h : Passing key k E fs t s) {fs' : Path} (s' : DeletePass)
    (hsorted : Ascending key E) (hc : Compares compare key) {a : Nat} {red : Bool} {x : PsmAddress} {near far : RbTree}
    (ht : t = branch (branchTo compare k x) a red x near far)
    (hrest : ∀ d, rest d fs' = rest d (⟨branchTo compare k x, a, red, x, far⟩ :: fs))
    (hholds : Holds s'.nodes fs' near) (hnode : s'.node = top fs')
    (hparent : ∀ f r, fs' = f :: r → s'.parentPtr = some (top r)) (hdir : s'.direction = topDir fs')
    (htarget : s'.target = if compare x k = 0 then a else s.target)
    (hbal : ∃ n, Balanced n (plug fs' near)) (hloose : Loose fs' near) : Passing key k E fs' near s' := by
  have hwalk : (plug fs' near).walk .right = E := by
    rw [← h.walk, ht, walk_plug, hrest, hrest, ← walk_plug]
    rfl
  have hloc : Located key k (⟨branchTo compare k x, a, red, x, far⟩ :: fs) := by
    apply h.located.descend hc
    rw [← ht, h.walk]
    exact hsorted
  refine ⟨hholds, hnode, hparent, hdir, hwalk, hbal, ⟨?_, ?_⟩, hloose, ?_⟩
  · rw [hrest]
    exact hloc.before
  · rw [hrest]
    exact hloc.after
  · rw [Targeted, hrest, htarget]
    by_cases hk : compare x k = 0
    · rw [if_pos hk]
      have hx : key x = k := (hc.zero_iff x k).mp hk
      have hleft : branchTo compare k x = .left := (branchTo_eq_left hc).mpr hx.ge
      exact Or.inr ⟨x, _, by rw [rest_cons_right hleft]; rfl, hx⟩
    · rw [if_neg hk]
      have hx : key x ≠ k := fun he => hk ((hc.zero_iff x k).mpr he)
      cases hd : branchTo compare k x with
      | right =>
        have hsame : rest .right (⟨.right, a, red, x, far⟩ :: fs : Path) = rest .right fs := by simp [rest]
        rw [hsame]
        exact h.targeted
      | left =>
        have hlt : k < key x := lt_of_le_of_ne ((branchTo_eq_left hc).mp hd) (Ne.symm hx)
        rw [← h.walk] at hsorted
        have hmem : (a, x) ∈ t.walk .right := by
          rw [ht]
          exact (walk_perm (branchTo compare k x) .right _).mem_iff.mp (by simp)
        obtain ⟨h0, hno⟩ | ⟨y, l, hy, hyk⟩ := h.targeted
        · refine Or.inl ⟨h0, ?_⟩
          rw [rest_cons_right rfl]
          intro b hb
          simp only [List.mem_append, List.mem_cons] at hb
          obtain (rfl | hb) | hb := hb
          · exact hx
          · have hplace := ascending_place hsorted
            rw [ht, hd] at hplace
            exact (hlt.trans (key_lt_far hplace hb)).ne'
          · exact hno b hb
        · have hxy := key_lt_rest hsorted hmem (b := (s.target, y)) (by simp [hy])
          rw [hyk] at hxy
          exact absurd hxy (not_lt.mpr hlt.le)

/-- The state of the pass once it has gone down to a node. -/
def entered (compare : PsmAddress → κ → Int) (k : κ) (s : DeletePass) (a x : PsmAddress) : DeletePass where
  nodes := s.nodes
  parentPtr := some s.node
  node := a
  direction := branchTo compare k x
  target := if compare x k = 0 then a else s.target

theorem round_eq (h : Passing key k E fs t s) {a : Nat} {red : Bool} {x : PsmAddress} {near far : RbTree}
    (ht : t = branch (branchTo compare k x) a red x near far) :
    deleteRound compare k s =
      if red || near.isRed then .inl (entered compare k s a x)
      else
        match redden (entered compare k s a x) s.parentPtr (top fs) (topDir fs) with
        | none => .inr none
        | some t => .inl t := by
  have hholds := h.holds
  have hchild : (s.nodes s.node).child s.direction = a := by
    rw [h.node, h.direction, child_top hholds, ht, root_branch]
  rw [ht] at hholds
  obtain ⟨ha, hcell⟩ := cell_of_holds hholds
  obtain ⟨-, -, hnear, -⟩ := repr_branch.mp hholds.tree
  have hred : nodeIsRed s.nodes a = red := by
    have hroot := nodeIsRed_root hholds.tree
    rwa [root_branch, isRed_branch] at hroot
  have hx : (s.nodes a).data = x := by rw [hcell]
  simp only [deleteRound, hchild, if_neg ha, hx, hred]
  have hdir : (if compare x k < 0 then Dir.right else Dir.left) = branchTo compare k x := rfl
  rw [hdir, child_near hholds, nodeIsRed_root hnear, ← h.node, ← h.direction]
  rfl

/-- A node that is red, or whose next child is, is passed as it is. -/
theorem passing_red (h : Passing key k E fs t s) (hsorted : Ascending key E) (hc : Compares compare key) {a : Nat}
    {red : Bool} {x : PsmAddress} {near far : RbTree} (ht : t = branch (branchTo compare k x) a red x near far)
    (hloose : Loose (⟨branchTo compare k x, a, red, x, far⟩ :: fs) near) :
    Passing key k E (⟨branchTo compare k x, a, red, x, far⟩ :: fs) near (entered compare k s a x) := by
  have hholds := h.holds
  have hbal := h.balanced
  rw [ht] at hholds hbal
  apply passing_of_rest h (entered compare k s a x) hsorted hc ht (fun _ => rfl) (holds_branch.mp hholds) rfl ?_ rfl
    rfl hbal hloose
  intro f r hf
  obtain ⟨rfl, rfl⟩ := List.cons.inj hf
  rw [← h.node]
  rfl

/-- The other child is red: it is rotated above the node, which turns red. -/
theorem redden_rotates (h : Passing key k E fs t s) (hsorted : Ascending key E) (hc : Compares compare key)
    {a v : Nat} {x vx : PsmAddress} {near orphan far : RbTree} (hnear : near.isRed = false)
    (ht : t = branch (branchTo compare k x) a false x near (branch (branchTo compare k x) v true vx orphan far)) :
    ∃ fs' s', redden (entered compare k s a x) s.parentPtr (top fs) (topDir fs) = some s' ∧
      Passing key k E fs' near s' := by
  have hholds := h.holds
  have hbal := h.balanced
  rw [ht] at hholds hbal
  obtain ⟨nodes', hrot, hnew⟩ := rotateOnce_holds hholds
  obtain ⟨-, -, -, hfar⟩ := repr_branch.mp hholds.tree
  have hred : nodeIsRed s.nodes ((s.nodes a).child (branchTo compare k x).other) = true := by
    rw [child_far hholds, nodeIsRed_root hfar, isRed_branch]
  obtain ⟨s', hs'⟩ : ∃ s', s' = ({ entered compare k s a x with
      nodes := setChild nodes' (top fs) (topDir fs) v
      parentPtr := some v } : DeletePass) := ⟨_, rfl⟩
  have hrun : redden (entered compare k s a x) s.parentPtr (top fs) (topDir fs) = some s' := by
    simp only [redden, entered, hred, if_true, hrot, Option.map_some, hs']
    simp
  refine ⟨⟨branchTo compare k x, a, true, x, orphan⟩ :: ⟨branchTo compare k x, v, false, vx, far⟩ :: fs, s', hrun, ?_⟩
  subst hs'
  apply passing_of_rest h _ hsorted hc ht
  · intro d
    by_cases hd : branchTo compare k x = d
    · simp [rest, hd]
    · obtain rfl : (branchTo compare k x).other = d := by rw [Dir.eq_other_of_ne hd, Dir.other_other]
      have hw : (branch (branchTo compare k x) v true vx orphan far).walk (branchTo compare k x).other =
          orphan.walk (branchTo compare k x).other ++ (v, vx) :: far.walk (branchTo compare k x).other := by
        rw [branch_swap, walk_branch]
      simp [rest, hw]
  · rw [← holds_branch, ← holds_branch]
    exact hnew
  · rfl
  · intro f r hf
    obtain ⟨rfl, rfl⟩ := List.cons.inj hf
    rfl
  · rfl
  · rfl
  · obtain ⟨m, hm, hctx⟩ := exists_balanced_plug.mp hbal
    obtain ⟨n, rfl⟩ := hm.height_of_black
    obtain ⟨hn, hv⟩ := balanced_black.mp hm
    obtain ⟨horphan, hfar⟩ := balanced_red.mp hv
    rw [isRed_branch] at hctx
    rw [exists_balanced_plug]
    exact ⟨n, hn, balancedCtx_red.mpr ⟨hnear, horphan, balancedCtx_black.mpr ⟨hfar.1, hctx⟩⟩⟩
  · intro f r hf
    obtain ⟨rfl, rfl⟩ := List.cons.inj hf
    exact Or.inl rfl

omit [LinearOrder κ] in
/-- Black children all around: what is read before the sibling is looked at. -/
theorem redden_black {a : Nat} {x : PsmAddress} {near far : RbTree}
    (hholds : Holds s.nodes fs (branch (branchTo compare k x) a false x near far)) (hfar : far.isRed = false)
    (grandparentPtr : Option PsmAddress) (parent : PsmAddress) (prevDirection : Dir) :
    redden (entered compare k s a x) grandparentPtr parent prevDirection =
      if (s.nodes parent).child prevDirection.other = 0 then some (entered compare k s a x)
      else if nodeIsRed s.nodes ((s.nodes ((s.nodes parent).child prevDirection.other)).child .left) = false ∧
          nodeIsRed s.nodes ((s.nodes ((s.nodes parent).child prevDirection.other)).child .right) = false then
        some
          { entered compare k s a x with
            nodes := setRed
              (setRed (setRed s.nodes parent false) ((s.nodes parent).child prevDirection.other) true) a true }
      else lendRed (entered compare k s a x) grandparentPtr parent ((s.nodes parent).child prevDirection.other)
        prevDirection := by
  obtain ⟨-, -, -, hrepr⟩ := repr_branch.mp hholds.tree
  have hred : nodeIsRed s.nodes ((s.nodes a).child (branchTo compare k x).other) = false := by
    rw [child_far hholds, nodeIsRed_root hrepr, hfar]
  simp only [redden, entered, hred, Bool.false_eq_true, if_false]
  rfl

/-- At the root of the tree there is no sibling. -/
theorem redden_root (h : Passing key k E [] t s) (hsorted : Ascending key E) (hc : Compares compare key) {a : Nat}
    {x : PsmAddress} {near far : RbTree} (hfar : far.isRed = false)
    (ht : t = branch (branchTo compare k x) a false x near far) :
    redden (entered compare k s a x) s.parentPtr 0 .right = some (entered compare k s a x) ∧
      Passing key k E [⟨branchTo compare k x, a, false, x, far⟩] near (entered compare k s a x) := by
  have hholds := h.holds
  have hzero := child_top_nil h.holds
  rw [ht] at hholds
  constructor
  · rw [redden_black hholds hfar, Dir.other_right, if_pos hzero]
  · apply passing_red h hsorted hc ht
    intro f r hf
    obtain ⟨rfl, rfl⟩ := List.cons.inj hf
    exact Or.inr (Or.inr ⟨rfl, hfar⟩)

/-- A black node that is not at the root has a black sibling of its height, and above the two there
is room for a tree of that height in either colour. -/
theorem sibling_spec {a : Nat} {x : PsmAddress} {near far : RbTree} {d : Dir}
    (hbal : ∃ n, Balanced n (plug (f :: r) (branch d a false x near far)))
    (hloose : Loose (f :: r) (branch d a false x near far)) :
    ∃ m, Balanced m near ∧ Balanced m far ∧ Balanced (m + 1) f.sib ∧ f.sib.isRed = false ∧
      ∀ u, Balanced (m + 1) u → ∃ j, Balanced j (plug r u) := by
  obtain ⟨n, ht, hctx⟩ := exists_balanced_plug.mp hbal
  obtain ⟨m, rfl⟩ := ht.height_of_black
  obtain ⟨hnear, hfar⟩ := balanced_black.mp ht
  obtain hf | hred | ⟨rfl, hsib⟩ := hloose f r rfl
  · obtain ⟨-, hsib, hr⟩ := hctx.frame_red hf
    refine ⟨m, hnear, hfar, hsib.1, hsib.2, fun u hu => exists_balanced_plug.mpr ⟨m + 1, hu, ?_⟩⟩
    cases u.isRed
    · exact hr.weaken
    · exact hr
  · simp at hred
  · have hsibBal : Balanced (m + 1) f.sib := by
      cases hf : f.isRed with
      | true => exact (hctx.frame_red hf).2.1.1
      | false => exact (hctx.frame_black hf).1
    exact ⟨m, hnear, hfar, hsibBal, hsib, fun u hu => ⟨m + 1, hu⟩⟩

/-- A sibling with a height is there, and its links are read in memory. -/
theorem sibling_present {m : Nat} (hholds : Holds s.nodes (f :: r) t) (hsib : Balanced (m + 1) f.sib) :
    f.sib ≠ nil ∧ root f.sib ≠ 0 ∧ (s.nodes f.addr).child f.dir.other = root f.sib ∧
      ∀ d, nodeIsRed s.nodes ((s.nodes (root f.sib)).child d) = (f.sib.kid d).isRed := by
  have hne : f.sib ≠ nil := by
    intro hnil
    rw [hnil, balanced_nil] at hsib
    cases hsib
  have hrepr : Repr s.nodes f.addr f.sib := hholds.ctx.2.2.1
  exact ⟨hne, mt hrepr.root_eq_zero.mp hne, frame_child_other hholds, fun d => nodeIsRed_child hrepr hne⟩

/-- The sibling has no red child: it and the node turn red, and their parent black. -/
theorem redden_flips (h : Passing key k E (f :: r) t s) (hsorted : Ascending key E) (hc : Compares compare key)
    {a : Nat} {x : PsmAddress} {near far : RbTree} (hnear : near.isRed = false) (hfar : far.isRed = false)
    (ht : t = branch (branchTo compare k x) a false x near far)
    (hkids : (f.sib.kid .left).isRed = false ∧ (f.sib.kid .right).isRed = false) :
    ∃ fs' s', redden (entered compare k s a x) s.parentPtr f.addr f.dir = some s' ∧
      Passing key k E fs' near s' := by
  have hholds := h.holds
  have hbal := h.balanced
  have hloose := h.loose
  rw [ht] at hholds hbal hloose
  obtain ⟨m, hmnear, hmfar, hmsib, hsibBlack, hroom⟩ := sibling_spec hbal hloose
  obtain ⟨hsibne, hzero, hsibroot, hkid⟩ := sibling_present hholds hmsib
  obtain ⟨s', hs'⟩ : ∃ s', s' = ({ entered compare k s a x with
      nodes := setRed (setRed (setRed s.nodes f.addr false) (root f.sib) true) a true } : DeletePass) := ⟨_, rfl⟩
  have hrun : redden (entered compare k s a x) s.parentPtr f.addr f.dir = some s' := by
    rw [redden_black hholds hfar, hsibroot, if_neg hzero,
      if_pos ⟨(hkid .left).trans hkids.1, (hkid .right).trans hkids.2⟩, hs']
  have h1 := paint_holds (holds_fill.mpr hholds) branch_ne_nil false
  rw [Frame.fill, paint_branch, root_branch] at h1
  have h2 := paint_far h1 hsibne true
  have h3 := paint_near h2 branch_ne_nil true
  rw [paint_branch, root_branch] at h3
  refine ⟨⟨branchTo compare k x, a, true, x, far⟩ :: ⟨f.dir, f.addr, false, f.data, f.sib.paint true⟩ :: r, s', hrun, ?_⟩
  subst hs'
  apply passing_of_rest h _ hsorted hc ht
  · intro d
    simp [rest]
  · rw [← holds_branch, ← holds_branch]
    exact h3
  · rfl
  · intro g q hg
    obtain ⟨rfl, rfl⟩ := List.cons.inj hg
    exact congrArg some h.node
  · rfl
  · rfl
  · apply hroom
    have hred : Balanced m (f.sib.paint true) := hmsib.paint_red hsibBlack hkids.1 hkids.2
    have hnode : Balanced m (branch (branchTo compare k x) a true x near far) :=
      balanced_red.mpr ⟨⟨hmnear, hnear⟩, hmfar, hfar⟩
    exact balanced_black.mpr ⟨hnode, hred⟩
  · intro g q hg
    obtain ⟨rfl, rfl⟩ := List.cons.inj hg
    exact Or.inl rfl

/-- The colours after a rotation: the new top and the node turn red, the children of the top black. -/
theorem recolour_holds {nodes : Partition} {e : Dir} {q g : Nat} {c c' : Bool} {qx gx : PsmAddress} {w : RbTree}
    (h : Holds nodes r (branch e q c qx (branch e g c' gx t u) w)) (ht : t ≠ nil) (hw : w ≠ nil) :
    ¬ ((nodes q).child .left = 0 ∨ (nodes q).child .right = 0) ∧
      Holds (setRed (setRed (setRed (setRed nodes q true) (root t) true) ((nodes q).child .left) false)
        ((nodes q).child .right) false) r (branch e q true qx (branch e g false gx (t.paint true) u) (w.paint false)) := by
  have hnear := child_near h
  have hfar := child_far h
  obtain ⟨-, -, hgrepr, hwrepr⟩ := repr_branch.mp h.tree
  have hg : g ≠ 0 := (repr_branch.mp hgrepr).1
  have hw0 : root w ≠ 0 := mt hwrepr.root_eq_zero.mp hw
  rw [root_branch] at hnear
  have h1 := paint_holds h branch_ne_nil true
  rw [paint_branch, root_branch, holds_branch] at h1
  have h2 := holds_branch.mpr (paint_near h1 ht true)
  cases e with
  | left =>
    rw [Dir.other_left] at hfar
    have h3 := paint_near h2 branch_ne_nil false
    rw [root_branch, paint_branch] at h3
    have h4 := paint_far h3 hw false
    rw [hnear, hfar]
    exact ⟨not_or.mpr ⟨hg, hw0⟩, h4⟩
  | right =>
    rw [Dir.other_right] at hfar
    have h3 := paint_far h2 hw false
    have h4 := paint_near h3 branch_ne_nil false
    rw [root_branch, paint_branch] at h4
    rw [hnear, hfar]
    exact ⟨not_or.mpr ⟨hw0, hg⟩, h4⟩

/-- Once the rotation is known, the rest of the case is the change of colours. -/
theorem lendRed_eq {S : DeletePass} {b : PsmAddress} {nodes' : Partition} {e : Dir} {q g : Nat} {c c' : Bool}
    {qx gx : PsmAddress} {w : RbTree} (hholds : Holds S.nodes (f :: r) t) (hnode : S.node = root u)
    (hrot : (if nodeIsRed S.nodes ((S.nodes b).child f.dir) then rotateTwice S.nodes f.addr f.dir
        else if nodeIsRed S.nodes ((S.nodes b).child f.dir.other) then rotateOnce S.nodes f.addr f.dir
        else some (S.nodes, (S.nodes (top r)).child (topDir r))) = some (nodes', q))
    {v : RbTree} (hnew : Holds (setChild nodes' (top r) (topDir r) q) r (branch e q c qx (branch e g c' gx u v) w))
    (hu : u ≠ nil) (hw : w ≠ nil) :
    ∃ nodes'', lendRed S (some (top r)) f.addr b f.dir = some { S with nodes := nodes'' } ∧
      Holds nodes'' r (branch e q true qx (branch e g false gx (u.paint true) v) (w.paint false)) := by
  have hside := subtree_eq_topDir (holds_fill.mpr hholds) branch_ne_nil
  rw [Frame.fill, root_branch] at hside
  have hside' : (if f.addr = (S.nodes (top r)).child .right then Dir.right else Dir.left) = topDir r := by
    rw [← hside]
    simp only [eq_comm]
  obtain ⟨hzero, hcolours⟩ := recolour_holds hnew hu hw
  refine ⟨_, ?_, hcolours⟩
  have htop : (setChild nodes' (top r) (topDir r) q (top r)).child (topDir r) = q := by simp
  simp only [lendRed, Option.bind_some, hside', hrot, htop, if_neg hzero, hnode]

/-- Wherever a rotation takes the two frames, they list the same nodes in the same order, and the
pass goes on below the node that has turned red. -/
theorem Passing.lent (h : Passing key k E (f :: r) t s) (hsorted : Ascending key E) (hc : Compares compare key)
    {a : Nat} {x : PsmAddress} {near far : RbTree} (ht : t = branch (branchTo compare k x) a false x near far) {m : Nat}
    (hroom : ∀ u, Balanced (m + 1) u → ∃ j, Balanced j (plug r u)) (g : Frame Nat PsmAddress) (sib' : RbTree)
    (nodes' : Partition)
    (hnew : Holds nodes' (g :: r) (branch f.dir f.addr false f.data (branch (branchTo compare k x) a true x near far) sib'))
    (hrest : ∀ d, rest d (⟨f.dir, f.addr, false, f.data, sib'⟩ :: g :: r) = rest d (f :: r))
    (hbal : Balanced (m + 1) (g.fill
      (branch f.dir f.addr false f.data (branch (branchTo compare k x) a true x near far) sib'))) :
    Passing key k E (⟨branchTo compare k x, a, true, x, far⟩ :: ⟨f.dir, f.addr, false, f.data, sib'⟩ :: g :: r) near
      { entered compare k s a x with nodes := nodes' } := by
  apply passing_of_rest h _ hsorted hc ht
  · intro d
    exact rest_congr (hrest d) _ _ _ _ _ _
  · rw [← holds_branch, ← holds_branch]
    exact hnew
  · rfl
  · intro g' q hg
    obtain ⟨rfl, rfl⟩ := List.cons.inj hg
    exact congrArg some h.node
  · rfl
  · rfl
  · exact hroom _ hbal
  · intro g' q hg
    obtain ⟨rfl, rfl⟩ := List.cons.inj hg
    exact Or.inl rfl

/-- The sibling has a red child: the parent is rotated below it or below the sibling, and the node
turns red without the heights changing. -/
theorem redden_lends (h : Passing key k E (f :: r) t s) (hsorted : Ascending key E) (hc : Compares compare key)
    {a : Nat} {x : PsmAddress} {near far : RbTree} (hnear : near.isRed = false) (hfar : far.isRed = false)
    (ht : t = branch (branchTo compare k x) a false x near far)
    (hkids : ¬ ((f.sib.kid .left).isRed = false ∧ (f.sib.kid .right).isRed = false)) :
    ∃ fs' s', redden (entered compare k s a x) s.parentPtr f.addr f.dir = some s' ∧
      Passing key k E fs' near s' := by
  have hholds := h.holds
  have hbal := h.balanced
  have hloose := h.loose
  rw [ht] at hholds hbal hloose
  obtain ⟨m, hmnear, hmfar, hmsib, hsibBlack, hroom⟩ := sibling_spec hbal hloose
  have hnode : Balanced m (branch (branchTo compare k x) a true x near far) :=
    balanced_red.mpr ⟨⟨hmnear, hnear⟩, hmfar, hfar⟩
  obtain ⟨hsibne, hzero, hsibroot, hred⟩ := sibling_present hholds hmsib
  have hrun : redden (entered compare k s a x) s.parentPtr f.addr f.dir =
      lendRed (entered compare k s a x) (some (top r)) f.addr (root f.sib) f.dir := by
    rw [redden_black hholds hfar, hsibroot, if_neg hzero, hred .left, hred .right, if_neg hkids, h.parentPtr f r rfl]
  have hup := holds_fill.mpr hholds
  rw [Frame.fill] at hup
  have hkid := hred f.dir
  have hkid' := hred f.dir.other
  obtain ⟨v, c, vx, inner, outer, hsib⟩ := exists_branch f.dir hsibne
  rw [hsib] at hmsib hsibBlack hup
  obtain rfl : c = false := by simpa using hsibBlack
  obtain ⟨hminner, hmouter⟩ := balanced_black.mp hmsib
  have hinner : (f.sib.kid f.dir).isRed = inner.isRed := by rw [hsib, kid_branch]
  have houter : (f.sib.kid f.dir.other).isRed = outer.isRed := by rw [hsib, kid_branch_other]
  rw [hinner] at hkid
  rw [houter] at hkid'
  rw [hrun]
  cases hi : inner.isRed with
  | true =>
    obtain ⟨q, c, qx, mid, orphan, rfl⟩ := exists_branch f.dir (ne_nil_of_isRed hi)
    obtain rfl : c = true := by simpa using hi
    obtain ⟨⟨hmid, hmidBlack⟩, horphan, -⟩ := balanced_red.mp hminner
    obtain ⟨nodes', hrot, hnew⟩ := rotateTwice_holds hup
    obtain ⟨nodes'', hlend, hcol⟩ := lendRed_eq (S := entered compare k s a x) (b := root f.sib) hholds
      root_branch.symm ((if_pos (hkid.trans hi)).trans hrot) hnew branch_ne_nil branch_ne_nil
    rw [paint_branch, paint_branch] at hcol
    refine ⟨_, _, hlend, h.lent hsorted hc ht hroom
      ⟨f.dir, q, true, qx, branch f.dir v false vx orphan outer⟩ mid nodes'' ?_ ?_ ?_⟩
    · rw [← holds_branch]
      exact hcol
    · apply rest_eq_of_other f.dir
      · simp [rest]
      · simp only [rest, hsib]
        simp [branch_swap f.dir]
    · exact balanced_red.mpr ⟨⟨balanced_black.mpr ⟨hnode, hmid⟩, isRed_branch⟩,
        balanced_black.mpr ⟨horphan, hmouter⟩, isRed_branch⟩
  | false =>
    have hblack : ¬ nodeIsRed s.nodes ((s.nodes (root f.sib)).child f.dir) = true := by
      rw [hkid, hi]
      decide
    have ho : outer.isRed = true := by
      rw [← houter]
      rw [hi] at hinner
      cases hd : f.dir with
      | left =>
        rw [hd] at hinner
        exact eq_true_of_ne_false (fun hr => hkids ⟨hinner, hr⟩)
      | right =>
        rw [hd] at hinner
        exact eq_true_of_ne_false (fun hl => hkids ⟨hl, hinner⟩)
    obtain ⟨nodes', hrot, hnew⟩ := rotateOnce_holds hup
    obtain ⟨nodes'', hlend, hcol⟩ := lendRed_eq (S := entered compare k s a x) (b := root f.sib) hholds
      root_branch.symm ((if_neg hblack).trans ((if_pos (hkid'.trans ho)).trans hrot)) hnew
      branch_ne_nil (ne_nil_of_isRed ho)
    rw [paint_branch] at hcol
    refine ⟨_, _, hlend, h.lent hsorted hc ht hroom
      ⟨f.dir, v, true, vx, outer.paint false⟩ inner nodes'' ?_ ?_ ?_⟩
    · rw [← holds_branch]
      exact hcol
    · apply rest_eq_of_other f.dir
      · simp [rest]
      · simp only [rest, hsib]
        simp [branch_swap f.dir]
    · exact balanced_red.mpr ⟨⟨balanced_black.mpr ⟨hnode, hminner⟩, isRed_branch⟩, hmouter.paint_black ho,
        isRed_paint_black⟩

/-- A round ends the pass at a missing child, and goes one node further down elsewhere. -/
theorem round_spec (h : Passing key k E fs t s) (hsorted : Ascending key E) (hc : Compares compare key) :
    (t = nil ∧ deleteRound compare k s = .inr (some s)) ∨
      ∃ fs' u s', deleteRound compare k s = .inl s' ∧ Passing key k E fs' u s' ∧
        wayDown compare k u < wayDown compare k t := by
  by_cases ht : t = nil
  · left
    have hzero : (s.nodes s.node).child s.direction = 0 := by rw [h.node, h.direction, child_top h.holds, ht, root_nil]
    exact ⟨ht, by simp only [deleteRound, hzero, if_true]⟩
  · right
    obtain ⟨a, red, x, near, far, ht⟩ := exists_branchTo compare k ht
    have hround := round_eq h ht
    have hway : wayDown compare k near < wayDown compare k t := by
      rw [ht, wayDown_branch rfl]
      exact Nat.lt_succ_self _
    by_cases hred : (red || near.isRed) = true
    · rw [if_pos hred] at hround
      refine ⟨_, near, _, hround, passing_red h hsorted hc ht ?_, hway⟩
      intro f r hf
      obtain ⟨rfl, rfl⟩ := List.cons.inj hf
      cases hr : red with
      | true => exact Or.inl rfl
      | false =>
        rw [hr, Bool.false_or] at hred
        exact Or.inr (Or.inl hred)
    · rw [if_neg hred] at hround
      rw [Bool.not_eq_true, Bool.or_eq_false_iff] at hred
      obtain ⟨rfl, hnear⟩ := hred
      have hredden : ∃ fs' s', redden (entered compare k s a x) s.parentPtr (top fs) (topDir fs) = some s' ∧
          Passing key k E fs' near s' := by
        cases hfar : far.isRed with
        | true =>
          obtain ⟨v, c, vx, orphan, w, rfl⟩ := exists_branch (branchTo compare k x) (ne_nil_of_isRed hfar)
          obtain rfl : c = true := by simpa using hfar
          exact redden_rotates h hsorted hc hnear ht
        | false =>
          cases fs with
          | nil =>
            obtain ⟨hrun, hpass⟩ := redden_root h hsorted hc hfar ht
            exact ⟨_, _, hrun, hpass⟩
          | cons f r =>
            by_cases hkids : (f.sib.kid .left).isRed = false ∧ (f.sib.kid .right).isRed = false
            · exact redden_flips h hsorted hc hnear hfar ht hkids
            · exact redden_lends h hsorted hc hnear hfar ht hkids
      obtain ⟨fs', s', hrun, hpass⟩ := hredden
      rw [hrun] at hround
      exact ⟨fs', near, s', hround, hpass, hway⟩

theorem pass_spec (h : Passing key k E fs t s) (hsorted : Ascending key E) (hc : Compares compare key) (fuel : Nat)
    (hfuel : wayDown compare k t < fuel) :
    ∃ fs' s', Runs.loop (deleteRound compare k) fuel s = some (some s') ∧ Passing key k E fs' nil s' := by
  have hend : ∃ r, Runs.loop (deleteRound compare k) fuel s = some r ∧
      ∃ fs' s', r = some s' ∧ Passing key k E fs' nil s' := by
    apply Runs.loop_bounded (fun n s => ∃ fs t, Passing key k E fs t s ∧ n = wayDown compare k t) _ _ _ s
      ⟨fs, t, h, rfl⟩ fuel hfuel
    rintro n s ⟨fs, t, h, rfl⟩
    obtain ⟨rfl, hround⟩ | ⟨fs', u, s', hround, hpass, hlt⟩ := round_spec h hsorted hc
    · exact Or.inr ⟨_, hround, fs, s, rfl, h⟩
    · exact Or.inl ⟨_, _, hround, ⟨fs', u, hpass, rfl⟩, hlt⟩
  obtain ⟨_, hrun, fs', s', rfl, hpass⟩ := hend
  exact ⟨fs', s', hrun, hpass⟩

variable {rbt : SmRbt}

/-- The pass comes to the missing child that follows the greatest key below the one looked for. -/
theorem deletePass_spec (hc : Compares compare key) (h : Sound key rbt t) (k : κ) :
    ∃ fs s, deletePass compare k rbt = some s ∧ Passing key k (t.walk .right) fs nil s := by
  have hstart : Passing key k (t.walk .right) [] t (deleteStart rbt) :=
    ⟨h.holds, rfl, by simp, rfl, rfl, h.balanced, located_nil k, by simp [Loose], Or.inl ⟨rfl, by simp⟩⟩
  have hway := wayDown_le compare k t
  obtain ⟨fs, s, hloop, hpass⟩ := pass_spec hstart h.ascending hc (rbt.length + 1) (by rw [h.length]; omega)
  exact ⟨fs, s, by rw [deletePass, hloop, Option.join_some], hpass⟩

/-- The node at which the pass ends has no children, and taking it away leaves the heights as they are. -/
theorem leaf_spec (h : Passing key k E (f :: r) nil s) : f.sib = nil ∧ BalancedCtx 0 false r := by
  obtain ⟨n, hn, hctx⟩ := exists_balanced_plug.mp h.balanced
  obtain rfl := balanced_nil.mp hn
  cases hf : f.isRed with
  | true =>
    obtain ⟨-, hsib, hr⟩ := hctx.frame_red hf
    exact ⟨hsib.1.eq_nil hsib.2, hr.weaken⟩
  | false =>
    obtain hred | hred | ⟨rfl, hblack⟩ := h.loose f r rfl
    · rw [hf] at hred
      cases hred
    · cases hred
    · exact ⟨(hctx.frame_black hf).1.eq_nil hblack, balancedCtx_nil⟩

theorem leaf_cell (h : Passing key k E (f :: r) nil s) :
    s.node = f.addr ∧ f.addr ≠ 0 ∧ s.nodes f.addr = ⟨top r, fun _ => 0, f.data, f.isRed⟩ := by
  obtain ⟨hf, hcell⟩ := frame_of_holds h.holds
  refine ⟨h.node, hf, ?_⟩
  rw [hcell, (leaf_spec h).1, root_nil]
  congr 1
  funext e
  simp [links]

/-- The element that the target follows, or is, takes the place of the target. -/
theorem target_spec (h : Passing key k E (f :: r) nil s) {x : PsmAddress} {l : List (Nat × PsmAddress)}
    (htarget : rest .right (f :: r) = (s.target, x) :: l) :
    ∃ r' A B, Holds (setData s.nodes s.target (s.nodes s.node).data) r' (branch f.dir f.addr f.isRed f.data nil nil) ∧
      top r' = top r ∧ topDir r' = topDir r ∧ BalancedCtx 0 false r' ∧
      E.map Prod.snd = A ++ x :: B ∧ ((plug r' nil).walk .right).map Prod.snd = A ++ B ∧
      (E.map Prod.fst).Perm (f.addr :: (plug r' nil).addrs) := by
  obtain ⟨hsib, hctx⟩ := leaf_spec h
  obtain ⟨hnode, -, hcell⟩ := leaf_cell h
  have hdata : (s.nodes s.node).data = f.data := by rw [hnode, hcell]
  have hholds := holds_fill.mpr h.holds
  rw [Frame.fill, hsib] at hholds
  have hE : E = (rest .left (f :: r)).reverse ++ rest .right (f :: r) := by
    rw [← h.walk, walk_plug, walk_nil, List.append_nil]
    rfl
  have hnew : ∀ r' : Path, (plug r' nil).walk .right = (rest .left r').reverse ++ rest .right r' := by
    intro r'
    rw [walk_plug, walk_nil, List.append_nil]
    rfl
  rw [hdata]
  cases hd : f.dir with
  | left =>
    -- the node itself is the target
    have hright : rest .right (f :: r) = (f.addr, f.data) :: f.sib.walk .right ++ rest .right r := rest_cons_right hd
    rw [hsib, walk_nil, List.cons_append, List.nil_append] at hright
    have hleft : rest .left (f :: r) = rest .left r := by simp [rest, hd]
    rw [hright, List.cons.injEq, Prod.mk.injEq] at htarget
    obtain ⟨⟨htarget, rfl⟩, -⟩ := htarget
    have hsame : setData s.nodes s.target f.data = s.nodes := by
      rw [← htarget]
      apply Function.update_eq_self_iff.mpr
      rw [hcell]
    rw [hleft, hright] at hE
    rw [hd] at hholds
    refine ⟨r, (rest .left r).reverse.map Prod.snd, (rest .right r).map Prod.snd, by rw [hsame]; exact hholds, rfl,
      rfl, hctx, ?_, ?_, ?_⟩
    · rw [hE, List.map_append, List.map_cons]
    · rw [hnew, List.map_append]
    · rw [hE, addrs, hnew, List.map_append, List.map_append, List.map_cons]
      exact List.perm_middle
  | right =>
    -- the target is the node that follows
    have hleft : rest .left (f :: r) = (f.addr, f.data) :: f.sib.walk .left ++ rest .left r := rest_cons_left hd
    rw [hsib, walk_nil, List.cons_append, List.nil_append] at hleft
    have hright : rest .right (f :: r) = rest .right r := by simp [rest, hd]
    rw [hright] at htarget
    rw [hleft, hright, htarget] at hE
    rw [hd] at hholds
    have hbefore : rest .left (relabel .right f.data r) = rest .left r := rest_relabel_other (d := .right)
    refine ⟨relabel .right f.data r, (rest .left r).reverse.map Prod.snd ++ [f.data], l.map Prod.snd,
      holds_relabel hholds htarget, top_relabel, topDir_relabel, balancedCtx_relabel hctx, ?_, ?_, ?_⟩
    · rw [hE]
      simp
    · rw [hnew, rest_relabel htarget, hbefore]
      simp
    · rw [hE, addrs, hnew, rest_relabel htarget, hbefore]
      simp only [List.reverse_cons, List.append_assoc, List.map_append, List.cons_append, List.nil_append,
        List.map_cons]
      exact List.perm_middle

/-- Nothing but the element with the key is taken away. -/
theorem filter_ascending {A B : List PsmAddress} {x : PsmAddress}
    (h : (A ++ x :: B).Pairwise (fun a b => key a < key b)) :
    (A ++ x :: B).filter (fun a => key a ≠ key x) = A ++ B ∧ (A ++ x :: B).find? (fun a => key a = key x) = some x := by
  obtain ⟨-, hB, hAB⟩ := List.pairwise_append.mp h
  have hA : ∀ a ∈ A, key a ≠ key x := fun a ha => (hAB a ha x List.mem_cons_self).ne
  have hB' : ∀ b ∈ B, key b ≠ key x := fun b hb => ((List.pairwise_cons.mp hB).1 b hb).ne'
  constructor
  · rw [List.filter_append, List.filter_cons_of_neg (by simp), List.filter_eq_self.mpr (by simpa using hA),
      List.filter_eq_self.mpr (by simpa using hB')]
  · rw [List.find?_append, List.find?_eq_none.mpr (by simpa using hA)]
    simp

theorem unlink_absent (hs : Sound key rbt t) (h : Passing key k (t.walk .right) fs nil s) (h0 : s.target = 0) :
    ∃ rbt' t', unlink rbt s = some (rbt', none) ∧ Sound key rbt' t' ∧ t'.walk .right = t.walk .right := by
  have hwalk : ((plug fs nil).paint false).walk .right = t.walk .right := by
    rw [walk_paint]
    exact h.walk
  refine ⟨_, (plug fs nil).paint false, by rw [unlink, if_pos h0], ?_, hwalk⟩
  apply sound_finish (holds_plug.mpr h.holds) h.balanced
  · rw [h.walk]
    exact hs.ascending
  · rw [h.walk]
    exact hs.length
  · rw [addrs, h.walk]
    exact hs.allocated

theorem erase_setChild {nodes : Partition} {a p c : PsmAddress} {d : Dir} (h : p ≠ a) :
    setChild (eraseTreeNode nodes a) p d c = eraseTreeNode (setChild nodes p d c) a := by
  simp only [setChild, eraseTreeNode, Function.update_of_ne h]
  exact Function.update_comm (Ne.symm h) _ _ _

theorem unlink_present (hs : Sound key rbt t) (h : Passing key k (t.walk .right) fs nil s) {x : PsmAddress}
    {l : List (Nat × PsmAddress)} (htarget : rest .right fs = (s.target, x) :: l) :
    ∃ rbt' t' A B, unlink rbt s = some (rbt', some x) ∧ Sound key rbt' t' ∧
      (t.walk .right).map Prod.snd = A ++ x :: B ∧ (t'.walk .right).map Prod.snd = A ++ B := by
  cases fs with
  | nil => cases htarget
  | cons f r =>
    have hmem : (s.target, x) ∈ rest .right (f :: r) := by simp [htarget]
    have htarget0 : s.target ≠ 0 := h.holds.ctx.ne_zero (mem_ctxAddrs_of_rest hmem)
    have hdata : (s.nodes s.target).data = x := h.holds.ctx.data hmem
    obtain ⟨hnode, hf, -⟩ := leaf_cell h
    obtain ⟨r', A, B, hholds, htop, hdir, hctx, hE, hnew, hperm⟩ := target_spec h htarget
    obtain ⟨nodes', hnodes'⟩ : ∃ nodes', nodes' = setData s.nodes s.target (s.nodes s.node).data := ⟨_, rfl⟩
    rw [← hnodes'] at hholds
    have hside := subtree_eq_topDir hholds branch_ne_nil
    rw [root_branch, htop, ← hnode] at hside
    obtain ⟨-, hcell⟩ := cell_of_holds hholds
    have hchild : ∀ e, (nodes' s.node).child e = 0 := by
      intro e
      simp [hnode, hcell, links]
    have happart : ∀ a ∈ ctxAddrs r', a ≠ f.addr := by
      rintro a ha rfl
      exact hholds.apart f.addr ha (by simp)
    have hgone : Holds (eraseTreeNode (setChild nodes' (top r) (topDir r) 0) s.node) r' nil := by
      have hreplaced : Holds (setChild (eraseTreeNode nodes' f.addr) (top r') (topDir r') (root nil)) r' nil :=
        hholds.replace (fun a ha => by simp [eraseTreeNode, happart a ha]) (by simp [eraseTreeNode, Ne.symm hf]) trivial List.nodup_nil
        (by simp)
      have hne : top r' ≠ f.addr := by
        cases r' with
        | nil => exact Ne.symm hf
        | cons g q => exact happart g.addr (by simp)
      rw [erase_setChild hne, htop, hdir, ← hnode] at hreplaced
      exact hreplaced
    have hrun : unlink rbt s =
        some (finish (eraseTreeNode (setChild nodes' (top r) (topDir r) 0) s.node) (rbt.length - 1)
          (rbt.allocated.erase s.node), some x) := by
      rw [unlink, if_neg htarget0, h.parentPtr f r rfl, Option.map_some, ← hnodes']
      simp only [hside, hchild, hdata, hdir]
    have hwalk : (((plug r' nil).paint false).walk .right).map Prod.snd = A ++ B := by
      rw [walk_paint]
      exact hnew
    have hlen : rbt.length = A.length + B.length + 1 := by
      rw [hs.length, ← List.length_map Prod.snd, hE, List.length_append, List.length_cons]
      omega
    refine ⟨_, (plug r' nil).paint false, A, B, hrun, ?_, hE, hwalk⟩
    apply sound_finish (holds_plug.mpr hgone) (exists_balanced_plug.mpr ⟨0, Balanced.nil, hctx⟩)
    · have hasc := ascending_iff.mp hs.ascending
      rw [hE] at hasc
      rw [ascending_iff, hnew]
      exact hasc.sublist ((List.sublist_cons_self x B).append_left A)
    · rw [← List.length_map Prod.snd, hnew, hlen, List.length_append]
      omega
    · rw [hnode]
      have herase := (hs.allocated.trans hperm).erase f.addr
      rwa [List.erase_cons_head] at herase

/-- A deletion takes the element with the key away, if there is one, and no other. -/
theorem smRbtDelete_spec (hc : Compares compare key) (h : Sound key rbt t) (k : κ) :
    ∃ rbt' t', smRbtDelete compare k rbt =
        some (rbt', ((t.walk .right).map Prod.snd).find? (fun x => key x = k)) ∧ Sound key rbt' t' ∧
      (t'.walk .right).map Prod.snd = ((t.walk .right).map Prod.snd).filter (fun x => key x ≠ k) := by
  by_cases hempty : rbt.length = 0 ∨ rbt.root = 0
  · have ht : t.walk .right = [] := by
      cases hempty with
      | inl hlen => exact List.eq_nil_of_length_eq_zero (h.length ▸ hlen)
      | inr hroot => rw [h.nil_iff.mp hroot, walk_nil]
    exact ⟨rbt, t, by rw [smRbtDelete, if_pos hempty, ht]; rfl, h, by rw [ht]; rfl⟩
  · obtain ⟨fs, s, hpass, h'⟩ := deletePass_spec hc h k
    rw [smRbtDelete, if_neg hempty, hpass, Option.bind_some]
    have hwalk : (rest .left fs).reverse ++ rest .right fs = t.walk .right := by
      rw [← h'.walk, walk_plug, walk_nil, List.append_nil]
      rfl
    obtain ⟨h0, hno⟩ | ⟨x, l, htarget, hx⟩ := h'.targeted
    · obtain ⟨rbt', t', hrun, hsound, hsame⟩ := unlink_absent h h' h0
      have habsent : ∀ y ∈ (t.walk .right).map Prod.snd, key y ≠ k := by
        rintro _ hy
        obtain ⟨a, ha, rfl⟩ := List.mem_map.mp hy
        rw [← hwalk, List.mem_append, List.mem_reverse] at ha
        cases ha with
        | inl ha => exact (h'.located.before a ha).ne
        | inr ha => exact hno a ha
      refine ⟨rbt', t', ?_, hsound, ?_⟩
      · rw [hrun, List.find?_eq_none.mpr (by simpa using habsent)]
      · rw [hsame, List.filter_eq_self.mpr (by simpa using habsent)]
    · obtain ⟨rbt', t', A, B, hrun, hsound, hE, hnew⟩ := unlink_present h h' htarget
      have hasc := ascending_iff.mp h.ascending
      rw [hE] at hasc
      obtain ⟨hfilter, hfind⟩ := filter_ascending hasc
      rw [hx] at hfilter hfind
      refine ⟨rbt', t', ?_, hsound, ?_⟩
      · rw [hrun, hE, hfind]
      · rw [hnew, hE, hfilter]

/-- The node that a deletion unlinks has no children. -/
theorem unlinked_leaf (hc : Compares compare key) (h : Sound key rbt t) (k : κ) :
    ∃ s, deletePass compare k rbt = some s ∧ (s.target ≠ 0 → s.node ≠ 0 ∧ ∀ e, (s.nodes s.node).child e = 0) := by
  obtain ⟨fs, s, hpass, h'⟩ := deletePass_spec hc h k
  refine ⟨s, hpass, fun htarget => ?_⟩
  cases fs with
  | nil =>
    obtain ⟨h0, -⟩ | ⟨x, l, hempty, -⟩ := h'.targeted
    · exact absurd h0 htarget
    · cases hempty
  | cons f r =>
    obtain ⟨hnode, hf, hcell⟩ := leaf_cell h'
    rw [hnode, hcell]
    exact ⟨hf, fun _ => rfl⟩

end SmrbtDelete
