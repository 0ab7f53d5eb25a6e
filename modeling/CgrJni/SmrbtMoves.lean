import CgrJni.Smrbt

/-!
What the rotations and the changes of colour do to the tree in memory.
-/

namespace SmrbtMoves

open RedBlack RedBlack.Tree LinkedTree Smrbt

variable {nodes : Partition} {p g v o : PsmAddress} {gr vr : Bool} {gx vx : PsmAddress}
variable {e : Dir} {near orphan far : Tree Nat PsmAddress}

/-- A rotation writes to the root, the pivot and the orphan. -/
theorem rotateOnce_cells (hg : g ≠ 0) (hv : v ≠ 0) (hgv : g ≠ v) (hpivot : (nodes g).child e.other = v)
    (horphan : (nodes v).child e = o) (ho : o ≠ 0 → o ≠ g ∧ o ≠ v) :
    ∃ nodes', rotateOnce nodes g e = some (nodes', v) ∧
      nodes' v = ⟨(nodes g).parent, Function.update (nodes v).child e g, (nodes v).data, false⟩ ∧
      nodes' g = ⟨v, Function.update (nodes g).child e.other o, (nodes g).data, true⟩ ∧
      (o ≠ 0 → nodes' o = { nodes o with parent := g }) ∧
      ∀ a, a ≠ g → a ≠ v → (a ≠ o ∨ o = 0) → nodes' a = nodes a := by
  have hcond : ¬ (g = 0 ∨ v = 0) := not_or.mpr ⟨hg, hv⟩
  simp only [rotateOnce, hpivot, horphan, if_neg hcond]
  refine ⟨_, rfl, ?_⟩
  by_cases h0 : o = 0
  · rw [if_pos h0]
    refine ⟨?_, ?_, fun h => absurd h0 h, ?_⟩
    · simp [setRed, setChild, setParent, Function.update_apply, hgv.symm]
    · simp [setRed, setChild, setParent, hgv]
    · intro a hag hav _
      simp [setRed, setChild, setParent, Function.update_apply, hag, hav]
  · obtain ⟨hog, hov⟩ := ho h0
    rw [if_neg h0]
    refine ⟨?_, ?_, fun _ => ?_, ?_⟩
    · simp [setRed, setChild, setParent, Function.update_apply, hgv.symm, hov.symm]
    · simp [setRed, setChild, setParent, Function.update_apply, hgv, hog.symm]
    · simp [setRed, setChild, setParent, Function.update_apply, hog, hov]
    · intro a hag hav hao
      simp [setRed, setChild, setParent, Function.update_apply, hag, hav, hao.resolve_right h0]

/-- The addresses of a root, of its pivot and of their subtrees are all different. -/
theorem nodup_pivot (h : (branch e g gr gx near (branch e v vr vx orphan far)).addrs.Nodup) :
    (g :: v :: (near.addrs ++ (orphan.addrs ++ far.addrs))).Nodup := by
  have hperm : (branch e g gr gx near (branch e v vr vx orphan far)).addrs.Perm
      (g :: (near.addrs ++ (branch e v vr vx orphan far).addrs)) := addrs_branch_perm
  have hpivot : (branch e v vr vx orphan far).addrs.Perm (v :: (orphan.addrs ++ far.addrs)) := addrs_branch_perm
  have hall := hperm.trans (((hpivot.append_left near.addrs).trans List.perm_middle).cons g)
  exact hall.nodup_iff.mp h

/-- The pivot takes the place of the root, and the orphan goes from the one to the other. -/
theorem rotateOnce_repr (h : Repr nodes p (branch e g gr gx near (branch e v vr vx orphan far)))
    (hnodup : (branch e g gr gx near (branch e v vr vx orphan far)).addrs.Nodup) :
    ∃ nodes', rotateOnce nodes g e = some (nodes', v) ∧
      Repr nodes' p (branch e v false vx (branch e g true gx near orphan) far) ∧
      ∀ a, a ∉ (branch e g gr gx near (branch e v vr vx orphan far)).addrs → nodes' a = nodes a := by
  rw [repr_branch, repr_branch] at h
  obtain ⟨hg, hgcell, hnear, hv, hvcell, horphan, hfar⟩ := h
  have hall := nodup_pivot hnodup
  simp only [List.nodup_cons, List.mem_cons, List.mem_append, not_or, List.nodup_append'] at hall
  obtain ⟨⟨hgv, hgnear, hgorphan, hgfar⟩, ⟨hvnear, hvorphan, hvfar⟩, -, ⟨horphannd, -, hof⟩, hnearx⟩ := hall
  have hroot : root orphan ≠ 0 → root orphan ∈ orphan.addrs := by
    intro h0
    exact root_mem (fun hnil => h0 (by rw [hnil]; rfl))
  have ho : root orphan ≠ 0 → root orphan ≠ g ∧ root orphan ≠ v := by
    intro h0
    exact ⟨fun he => hgorphan (he ▸ hroot h0), fun he => hvorphan (he ▸ hroot h0)⟩
  have hpivot : (nodes g).child e.other = v := by simp [hgcell]
  have horphan' : (nodes v).child e = root orphan := by simp [hvcell]
  obtain ⟨nodes', hrot, hv', hg', ho', hother⟩ := rotateOnce_cells hg hv hgv hpivot horphan' ho
  have hkeep : ∀ a, a ≠ g → a ≠ v → a ∉ orphan.addrs → nodes' a = nodes a := by
    intro a hag hav hao
    apply hother a hag hav
    by_cases h0 : root orphan = 0
    · exact Or.inr h0
    · exact Or.inl (fun he => hao (he ▸ hroot h0))
  refine ⟨nodes', hrot, ?_, ?_⟩
  · rw [repr_branch, repr_branch]
    refine ⟨hv, ?_, ⟨hg, ?_, ?_, ?_⟩, ?_⟩
    · rw [hv', hgcell, hvcell]
      simp
    · rw [hg', hgcell]
      simp
    · apply hnear.congr
      intro a ha
      exact hkeep a (ne_of_mem_of_not_mem ha hgnear) (ne_of_mem_of_not_mem ha hvnear)
        (fun hao => hnearx ha (List.mem_append_left _ hao))
    · apply horphan.reparent horphannd
      · intro hne
        exact ho' (fun h0 => hne (horphan.root_eq_zero.mp h0))
      · intro a ha hne
        exact hother a (ne_of_mem_of_not_mem ha hgorphan) (ne_of_mem_of_not_mem ha hvorphan) (Or.inl hne)
    · apply hfar.congr
      intro a ha
      exact hkeep a (ne_of_mem_of_not_mem ha hgfar) (ne_of_mem_of_not_mem ha hvfar) (fun hao => hof hao ha)
  · intro a ha
    simp only [mem_addrs_branch, not_or] at ha
    exact hkeep a ha.1 ha.2.2.1 ha.2.2.2.1

variable {fs : List (Frame Nat PsmAddress)} {f : Frame Nat PsmAddress} {t u : Tree Nat PsmAddress}

/-- The cell at a place. -/
theorem cell_of_holds {a : PsmAddress} {r : Bool} {x : PsmAddress} {l far : Tree Nat PsmAddress} {d : Dir}
    (h : Holds nodes fs (branch d a r x l far)) :
    a ≠ 0 ∧ nodes a = ⟨top fs, links d (root l) (root far), x, r⟩ := by
  obtain ⟨ha, hcell, -⟩ := repr_branch.mp h.tree
  exact ⟨ha, hcell⟩

/-- The cell above a place. -/
theorem frame_of_holds (h : Holds nodes (f :: fs) t) :
    f.addr ≠ 0 ∧ nodes f.addr = ⟨top fs, links f.dir (root t) (root f.sib), f.data, f.isRed⟩ :=
  ⟨h.ctx.1, h.ctx.2.1⟩

theorem child_near {a : PsmAddress} {r : Bool} {x : PsmAddress} {l far : Tree Nat PsmAddress} {d : Dir}
    (h : Holds nodes fs (branch d a r x l far)) : (nodes a).child d = root l := by
  simp [(cell_of_holds h).2]

theorem child_far {a : PsmAddress} {r : Bool} {x : PsmAddress} {l far : Tree Nat PsmAddress} {d : Dir}
    (h : Holds nodes fs (branch d a r x l far)) : (nodes a).child d.other = root far := by
  simp [(cell_of_holds h).2]

theorem frame_child (h : Holds nodes (f :: fs) t) : (nodes f.addr).child f.dir = root t := by
  simp [(frame_of_holds h).2]

theorem frame_child_other (h : Holds nodes (f :: fs) t) : (nodes f.addr).child f.dir.other = root f.sib := by
  simp [(frame_of_holds h).2]

/-- The cell above a place has the address of what is there. -/
theorem child_top (h : Holds nodes fs t) : (nodes (top fs)).child (topDir fs) = root t := by
  cases fs with
  | nil =>
    have hbase := h.base
    rw [plug_nil] at hbase
    simp [hbase]
  | cons f fs => exact frame_child h

theorem child_top_nil (h : Holds nodes [] t) : (nodes 0).child .left = 0 := by
  rw [h.base]
  exact links_other

theorem nodeIsRed_root (h : Repr nodes p t) : nodeIsRed nodes (root t) = t.isRed := by
  cases t with
  | nil => simp [nodeIsRed]
  | node a r x l far =>
    obtain ⟨ha, hcell, -⟩ := h
    simp [nodeIsRed, root, ha, hcell, isRed]

theorem nodeIsRed_child {d : Dir} (h : Repr nodes p t) (ht : t ≠ nil) :
    nodeIsRed nodes ((nodes (root t)).child d) = (t.kid d).isRed := by
  obtain ⟨a, r, x, l, far, rfl⟩ := exists_branch d ht
  obtain ⟨-, hcell, hl, -⟩ := repr_branch.mp h
  rw [root_branch, hcell, kid_branch, ← nodeIsRed_root hl]
  simp

/-- A tree of the same addresses takes the place of another. -/
theorem holds_of_addrs (h : Holds nodes fs t) {nodes' : Partition} (haddrs : u.addrs = t.addrs)
    (hout : ∀ a, a ∉ t.addrs → nodes' a = nodes a) (hu : Repr nodes' (top fs) u) :
    Holds (setChild nodes' (top fs) (topDir fs) (root u)) fs u := by
  have h0 : (0 : Nat) ∉ t.addrs := fun h0 => h.tree.ne_zero h0 rfl
  apply h.replace (fun a ha => hout a (h.apart a ha)) (hout 0 h0) hu
  · rw [haddrs]
    exact h.tree_nodup
  · rw [haddrs]
    exact h.apart

theorem rotateOnce_holds (h : Holds nodes fs (branch e g gr gx near (branch e v vr vx orphan far))) :
    ∃ nodes', rotateOnce nodes g e = some (nodes', v) ∧
      Holds (setChild nodes' (top fs) (topDir fs) v) fs
        (branch e v false vx (branch e g true gx near orphan) far) := by
  obtain ⟨nodes', hrot, hrepr, hout⟩ := rotateOnce_repr h.tree h.tree_nodup
  have haddrs : (branch e g gr gx near (branch e v vr vx orphan far)).addrs =
      (branch e v false vx (branch e g true gx near orphan) far).addrs :=
    congrArg (List.map Prod.fst) (walk_rotate .right e)
  have hnew := holds_of_addrs h haddrs.symm hout hrepr
  rw [root_branch] at hnew
  exact ⟨nodes', hrot, hnew⟩

/-- Two rotations bring the child of the pivot to the top. -/
theorem rotateTwice_holds {q : PsmAddress} {qr : Bool} {qx : PsmAddress} {sib : Tree Nat PsmAddress}
    (h : Holds nodes fs (branch e g gr gx near (branch e v vr vx (branch e q qr qx far orphan) sib))) :
    ∃ nodes', rotateTwice nodes g e = some (nodes', q) ∧
      Holds (setChild nodes' (top fs) (topDir fs) q) fs
        (branch e q false qx (branch e g true gx near far) (branch e v true vx orphan sib)) := by
  obtain ⟨hg, hcell⟩ := cell_of_holds h
  have hfill : ∀ t, (⟨e.other, g, gr, gx, near⟩ : Frame Nat PsmAddress).fill t = branch e g gr gx near t :=
    fun t => branch_other
  have hinner : Holds nodes (⟨e.other, g, gr, gx, near⟩ :: fs)
      (branch e.other v vr vx sib (branch e.other q qr qx orphan far)) := by
    rw [← holds_fill, hfill, branch_other, branch_other]
    exact h
  obtain ⟨nodes₁, hrot₁, hholds₁⟩ := rotateOnce_holds hinner
  rw [← holds_fill, hfill, branch_other, branch_other, top_cons, topDir_cons] at hholds₁
  obtain ⟨nodes₂, hrot₂, hholds₂⟩ := rotateOnce_holds hholds₁
  refine ⟨nodes₂, ?_, hholds₂⟩
  have hchild : (nodes g).child e.other = v := by simp [hcell]
  simp [rotateTwice, hg, hchild, hrot₁, hrot₂]

theorem paint_holds (h : Holds nodes fs t) (ht : t ≠ nil) (b : Bool) :
    Holds (setRed nodes (root t) b) fs (t.paint b) := by
  obtain ⟨a, r, x, l, far, rfl⟩ := exists_branch .left ht
  obtain ⟨ha, hcell, hl, hfar⟩ := repr_branch.mp h.tree
  have hnodup := (addrs_branch_perm (d := .left)).nodup_iff.mp h.tree_nodup
  simp only [List.nodup_cons, List.mem_append, not_or] at hnodup
  have hout : ∀ c, c ≠ a → setRed nodes a b c = nodes c := fun c hc => setRed_of_ne hc
  simp only [root_branch, paint_branch]
  apply h.replace_same
  · simp
  · intro c hc
    apply hout
    rintro rfl
    exact h.apart c hc (by simp)
  · exact hout 0 (Ne.symm ha)
  · rw [repr_branch]
    refine ⟨ha, ?_, ?_, ?_⟩
    · rw [setRed_self, hcell]
    · exact hl.congr (fun c hc => hout c (ne_of_mem_of_not_mem hc hnodup.1.1))
    · exact hfar.congr (fun c hc => hout c (ne_of_mem_of_not_mem hc hnodup.1.2))
  · have haddrs := addrs_paint (t := branch .left a r x l far) (b := b)
    rw [paint_branch] at haddrs
    rw [haddrs]
    exact h.tree_nodup
  · intro c hc
    have haddrs := h.apart c hc
    simp only [mem_addrs_branch] at haddrs ⊢
    exact haddrs

/-- Going down one side of a node. -/
theorem holds_branch {d : Dir} {a : PsmAddress} {r : Bool} {x : PsmAddress} {l far : Tree Nat PsmAddress} :
    Holds nodes fs (branch d a r x l far) ↔ Holds nodes (⟨d, a, r, x, far⟩ :: fs) l :=
  holds_fill (f := ⟨d, a, r, x, far⟩)

theorem holds_branch_other {d : Dir} {a : PsmAddress} {r : Bool} {x : PsmAddress}
    {l far : Tree Nat PsmAddress} :
    Holds nodes fs (branch d a r x l far) ↔ Holds nodes (⟨d.other, a, r, x, l⟩ :: fs) far := by
  rw [← holds_branch, branch_other]

/-- A subtree gets another colour, without going there. -/
theorem paint_near {d : Dir} {a : PsmAddress} {r : Bool} {x : PsmAddress} {l far : Tree Nat PsmAddress}
    (h : Holds nodes fs (branch d a r x l far)) (hl : l ≠ nil) (b : Bool) :
    Holds (setRed nodes (root l) b) fs (branch d a r x (l.paint b) far) := by
  rw [holds_branch] at h ⊢
  exact paint_holds h hl b

theorem paint_far {d : Dir} {a : PsmAddress} {r : Bool} {x : PsmAddress} {l far : Tree Nat PsmAddress}
    (h : Holds nodes fs (branch d a r x l far)) (hfar : far ≠ nil) (b : Bool) :
    Holds (setRed nodes (root far) b) fs (branch d a r x l (far.paint b)) := by
  rw [holds_branch_other] at h ⊢
  exact paint_holds h hfar b

/-- The side of the cell above on which a subtree hangs, found by looking at its right child. -/
theorem subtree_eq_topDir (h : Holds nodes fs t) (ht : t ≠ nil) :
    (if (nodes (top fs)).child .right = root t then Dir.right else Dir.left) = topDir fs := by
  cases fs with
  | nil =>
    have hbase := h.base
    rw [plug_nil] at hbase
    simp [hbase]
  | cons f fs =>
    have hchild := frame_child h
    have hother := frame_child_other h
    rw [top_cons, topDir_cons]
    cases hd : f.dir with
    | right =>
      rw [hd] at hchild
      rw [if_pos hchild]
    | left =>
      rw [hd, Dir.other_left] at hother
      rw [hother, if_neg]
      intro heq
      have hmem : root f.sib ∈ f.sib.addrs := by
        apply root_mem
        rintro hnil
        rw [hnil, root_nil] at heq
        exact ht (h.tree.root_eq_zero.mp heq.symm)
      rw [heq] at hmem
      exact h.apart (root t) (by simp [hmem]) (root_mem ht)

end SmrbtMoves
