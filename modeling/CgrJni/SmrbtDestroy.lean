import CgrJni.SmrbtRuns

/-!
The destruction of the nodes of a red-black tree. The tree is its own stack: the
pass climbs by the parents of the nodes, read before they are released. An access
to a node that is not allocated ends the pass with `none`.
-/

namespace SmrbtDestroy

open RedBlack RedBlack.Tree LinkedTree Smrbt SmrbtOrder Runs

section

variable {σ : Type}

/-- What is called for the data of a node, if the caller gave anything to call. -/
def callDeleteFn (deleteFn : Option (PsmAddress → σ → σ)) (data : PsmAddress) (world : σ) : σ :=
  match deleteFn with
  | none => world
  | some deleteFn => deleteFn data world

/-- Where the pass is, what the delete function has done so far, and what was released. -/
structure DestroyPass (σ : Type) where
  rbt : SmRbt
  node : PsmAddress
  world : σ
  freed : List PsmAddress

/-- The parent forgets the child that has now been deleted. -/
def eraseChild (nodes : Partition) (parentNode node : PsmAddress) : Partition :=
  let nodes := if node = (nodes parentNode).child .left then setChild nodes parentNode .left 0 else nodes
  if node = (nodes parentNode).child .right then setChild nodes parentNode .right 0 else nodes

/-- A leaf is deleted, and the pass pops back up to its parent. -/
def destroyLeaf (deleteFn : Option (PsmAddress → σ → σ)) (s : DestroyPass σ) :
    DestroyPass σ ⊕ Option (DestroyPass σ) :=
  let parentNode := (s.rbt.nodes s.node).parent
  let world := callDeleteFn deleteFn (s.rbt.nodes s.node).data s.world
  let nodes := eraseTreeNode s.rbt.nodes s.node
  let allocated := s.rbt.allocated.erase s.node
  let freed := s.freed ++ [s.node]
  if parentNode = 0 then .inr (some ⟨⟨0, s.rbt.length, nodes, allocated⟩, s.node, world, freed⟩)
  else if parentNode ∈ allocated then
    .inl ⟨⟨s.rbt.root, s.rbt.length, eraseChild nodes parentNode s.node, allocated⟩, parentNode, world, freed⟩
  else .inr none

def destroyRound (deleteFn : Option (PsmAddress → σ → σ)) (s : DestroyPass σ) :
    DestroyPass σ ⊕ Option (DestroyPass σ) :=
  if s.node = 0 then .inr (some s)
  else if s.node ∉ s.rbt.allocated then .inr none
  else if (s.rbt.nodes s.node).child .left ≠ 0 then .inl { s with node := (s.rbt.nodes s.node).child .left }
  else if (s.rbt.nodes s.node).child .right ≠ 0 then .inl { s with node := (s.rbt.nodes s.node).child .right }
  else destroyLeaf deleteFn s

def destroyRbtNodes (deleteFn : Option (PsmAddress → σ → σ)) (rbt : SmRbt) (world : σ) :
    Option (DestroyPass σ) :=
  (loop (destroyRound deleteFn) (2 * rbt.allocated.length + 1) ⟨rbt, rbt.root, world, []⟩).join

end

/-- The links of a tree object are those of a tree, of whatever shape, on the nodes that are allocated. -/
structure Consistent (rbt : SmRbt) (t : RbTree) : Prop where
  root : rbt.root = root t
  repr : Repr rbt.nodes 0 t
  nodup : t.addrs.Nodup
  allocated : rbt.allocated.Perm t.addrs

variable {σ : Type} {deleteFn : Option (PsmAddress → σ → σ)} {s s' s'' : DestroyPass σ}
variable {a p x : PsmAddress} {red : Bool} {d : Dir} {cell cell' : SmRbtNode} {l r t : RbTree}

/-- The pass is back at a node below which some nodes are gone. -/
structure Cleared (deleteFn : Option (PsmAddress → σ → σ)) (s s' : DestroyPass σ) (a : PsmAddress)
    (cell : SmRbtNode) (gone : List (PsmAddress × PsmAddress)) : Prop where
  node : s'.node = a
  cell : s'.rbt.nodes a = cell
  elsewhere : ∀ b, b ≠ a → b ∉ gone.map Prod.fst → s'.rbt.nodes b = s.rbt.nodes b
  allocated : s.rbt.allocated.Perm (gone.map Prod.fst ++ s'.rbt.allocated)
  freed : s'.freed = s.freed ++ gone.map Prod.fst
  world : s'.world = gone.foldl (fun world entry => callDeleteFn deleteFn entry.2 world) s.world

theorem Cleared.refl (hnode : s.node = a) (hcell : s.rbt.nodes a = cell) : Cleared deleteFn s s a cell [] where
  node := hnode
  cell := hcell
  elsewhere _ _ _ := rfl
  allocated := by simp
  freed := by simp
  world := rfl

theorem Cleared.trans {gone gone' : List (PsmAddress × PsmAddress)} (h : Cleared deleteFn s s' a cell gone)
    (h' : Cleared deleteFn s' s'' a cell' gone') : Cleared deleteFn s s'' a cell' (gone ++ gone') where
  node := h'.node
  cell := h'.cell
  elsewhere b hb hgone := by
    rw [List.map_append, List.mem_append, not_or] at hgone
    rw [h'.elsewhere b hb hgone.2, h.elsewhere b hb hgone.1]
  allocated := by
    rw [List.map_append, List.append_assoc]
    exact h.allocated.trans (h'.allocated.append_left _)
  freed := by rw [h'.freed, h.freed, List.map_append, List.append_assoc]
  world := by rw [h'.world, h.world, List.foldl_append]

/-- After what was below a node the node itself goes. -/
theorem Cleared.leaf {b y : PsmAddress} {gone : List (PsmAddress × PsmAddress)}
    (h : Cleared deleteFn { s with node := b } s' b cell gone) (h' : Cleared deleteFn s' s'' a cell' [(b, y)]) :
    Cleared deleteFn s s'' a cell' (gone ++ [(b, y)]) where
  node := h'.node
  cell := h'.cell
  elsewhere c hca hgone := by
    rw [List.map_append, List.mem_append, not_or] at hgone
    rw [h'.elsewhere c hca hgone.2]
    exact h.elsewhere c (by simpa using hgone.2) hgone.1
  allocated := by
    rw [List.map_append, List.append_assoc]
    exact h.allocated.trans (h'.allocated.append_left _)
  freed := by
    rw [h'.freed, h.freed, List.map_append]
    exact List.append_assoc _ _ _
  world := by rw [h'.world, h.world, List.foldl_append]

/-- What is not gone is still allocated. -/
theorem Cleared.mem_allocated {gone : List (PsmAddress × PsmAddress)} (h : Cleared deleteFn s s' a cell gone)
    {b : PsmAddress} (hb : b ∈ s.rbt.allocated) (hgone : b ∉ gone.map Prod.fst) : b ∈ s'.rbt.allocated := by
  have hmem := h.allocated.mem_iff.mp hb
  rw [List.mem_append] at hmem
  exact hmem.resolve_left hgone

theorem mem_postorder {b : PsmAddress} : b ∈ t.postorder.map Prod.fst ↔ b ∈ t.addrs := (addrs_postorder t).mem_iff

/-- A child that is still there is gone down to. -/
theorem destroyRound_down (deleteFn : Option (PsmAddress → σ → σ)) (ha : a ≠ 0) (hnode : s.node = a)
    (hlive : a ∈ s.rbt.allocated) (hchild : (s.rbt.nodes a).child d ≠ 0)
    (hleft : d = .right → (s.rbt.nodes a).child .left = 0) :
    destroyRound deleteFn s = .inl { s with node := (s.rbt.nodes a).child d } := by
  subst hnode
  simp only [destroyRound, if_neg ha, hlive, not_true, if_false]
  cases d with
  | left => rw [if_pos hchild]
  | right => rw [if_neg (not_not_intro (hleft rfl)), if_pos hchild]

theorem destroyRound_leaf (deleteFn : Option (PsmAddress → σ → σ)) (ha : a ≠ 0) (hnode : s.node = a)
    (hlive : a ∈ s.rbt.allocated) (hcell : s.rbt.nodes a = ⟨p, links .left 0 0, x, red⟩) :
    destroyRound deleteFn s = destroyLeaf deleteFn s := by
  subst hnode
  have hchildren : ∀ d, (s.rbt.nodes s.node).child d = 0 := by
    intro d
    rw [hcell]
    cases d <;> rfl
  simp only [destroyRound, if_neg ha, hlive, hchildren, not_true, if_false, ne_eq]

/-- A parent has a child on one side alone. -/
theorem eraseChild_eq {nodes : Partition} {node : PsmAddress} (hnode : (nodes p).child d = node)
    (hother : (nodes p).child d.other ≠ node) : eraseChild nodes p node = setChild nodes p d 0 := by
  unfold eraseChild
  cases d with
  | left =>
    have hright : node ≠ ((setChild nodes p .left 0) p).child .right := by
      rw [setChild_self]
      exact Ne.symm hother
    dsimp only
    rw [if_pos hnode.symm, if_neg hright]
  | right =>
    have hleft : node ≠ (nodes p).child .left := Ne.symm hother
    dsimp only
    rw [if_neg hleft, if_pos hnode.symm]

/-- A leaf below another node goes, and the pass is at that node. -/
theorem destroyLeaf_cleared (deleteFn : Option (PsmAddress → σ → σ)) {b y : PsmAddress} {red' : Bool} (hb : s.node = b)
    (hcell : s.rbt.nodes b = ⟨a, links .left 0 0, y, red'⟩) (ha : a ≠ 0) (hab : a ≠ b)
    (hlive : a ∈ s.rbt.allocated) (hlive' : b ∈ s.rbt.allocated)
    (hchild : (s.rbt.nodes a).child d = b) (hother : (s.rbt.nodes a).child d.other ≠ b) :
    ∃ s', destroyLeaf deleteFn s = .inl s' ∧ Cleared deleteFn s s' a
      { s.rbt.nodes a with child := Function.update (s.rbt.nodes a).child d 0 } [(b, y)] := by
  subst hb
  have hkept : a ∈ s.rbt.allocated.erase s.node := (List.mem_erase_of_ne hab).mpr hlive
  have herased : eraseTreeNode s.rbt.nodes s.node a = s.rbt.nodes a := Function.update_of_ne hab _ _
  simp only [destroyLeaf, hcell, if_neg ha, if_pos hkept]
  rw [eraseChild_eq (by rw [herased]; exact hchild) (by rw [herased]; exact hother)]
  refine ⟨_, rfl, rfl, ?_, ?_, ?_, rfl, rfl⟩
  · dsimp only
    rw [setChild_self, herased]
  · intro c hca hcb
    dsimp only
    rw [setChild_of_ne hca]
    exact Function.update_of_ne (by simpa using hcb) _ _
  · exact List.perm_cons_erase hlive'

/-- A subtree on one side of the node at which the pass is, and which is the next to be gone down to. -/
structure Below (deleteFn : Option (PsmAddress → σ → σ)) (s : DestroyPass σ) (a : PsmAddress) (d : Dir)
    (t : RbTree) : Prop where
  node : s.node = a
  ne_zero : a ≠ 0
  live : a ∈ s.rbt.allocated
  child : (s.rbt.nodes a).child d = root t
  other : t ≠ nil → (s.rbt.nodes a).child d.other ≠ root t
  next : d = .right → (s.rbt.nodes a).child .left = 0
  repr : Repr s.rbt.nodes a t
  nodup : t.addrs.Nodup
  outside : a ∉ t.addrs
  allocated : ∀ b ∈ t.addrs, b ∈ s.rbt.allocated

/-- What the pass does below a node: the subtree goes, two rounds for each of its nodes. -/
def Clears (deleteFn : Option (PsmAddress → σ → σ)) (t : RbTree) : Prop :=
  ∀ s a d, Below deleteFn s a d t →
    ∃ s', Goes (destroyRound deleteFn) (2 * t.postorder.length) s s' ∧
      Cleared deleteFn s s' a { s.rbt.nodes a with child := Function.update (s.rbt.nodes a).child d 0 } t.postorder

/-- Both subtrees of a node go, the left one first. -/
theorem clears_children (hl : Clears deleteFn l) (hr : Clears deleteFn r) (hnode : s.node = a)
    (hrepr : Repr s.rbt.nodes p (node a red x l r)) (hnodup : (node a red x l r).addrs.Nodup)
    (hlive : ∀ b ∈ (node a red x l r).addrs, b ∈ s.rbt.allocated) :
    ∃ s', Goes (destroyRound deleteFn) (2 * (l.postorder ++ r.postorder).length) s s' ∧
      Cleared deleteFn s s' a ⟨p, links .left 0 0, x, red⟩ (l.postorder ++ r.postorder) := by
  obtain ⟨ha, hcell, hreprl, hreprr⟩ := hrepr
  have hmem : ∀ b, b ∈ (node a red x l r).addrs ↔ b = a ∨ b ∈ l.addrs ∨ b ∈ r.addrs :=
    fun b => mem_addrs_branch (d := .left)
  have hnodup' := (addrs_branch_perm (d := .left)).nodup_iff.mp hnodup
  rw [List.nodup_cons, List.mem_append, not_or, List.nodup_append'] at hnodup'
  obtain ⟨⟨hal, har⟩, hnl, hnr, hapart⟩ := hnodup'
  have hchild : (s.rbt.nodes a).child = links .left (root l) (root r) := by rw [hcell]
  have hleft : Below deleteFn s a .left l := by
    refine ⟨hnode, ha, hlive a ((hmem a).mpr (Or.inl rfl)), ?_, ?_, ?_, hreprl, hnl, hal, ?_⟩
    · rw [hchild, links_self]
    · intro hne heq
      rw [hchild, links_other] at heq
      have hin : root r ∈ l.addrs := heq ▸ root_mem hne
      have hne' : r ≠ nil := fun h0 => hreprl.ne_zero hin (h0 ▸ rfl)
      exact hapart hin (root_mem hne')
    · intro hd
      cases hd
    · exact fun b hb => hlive b ((hmem b).mpr (Or.inr (Or.inl hb)))
  obtain ⟨s₁, hgo₁, hc₁⟩ := hl s a .left hleft
  have hcell₁ : s₁.rbt.nodes a = ⟨p, links .left 0 (root r), x, red⟩ := by
    rw [hc₁.cell, hcell, update_links_self]
  have hchild₁ : (s₁.rbt.nodes a).child = links .left 0 (root r) := by rw [hcell₁]
  have hright : Below deleteFn s₁ a .right r := by
    refine ⟨hc₁.node, ha, ?_, ?_, ?_, ?_, ?_, hnr, har, ?_⟩
    · exact hc₁.mem_allocated hleft.live (mt mem_postorder.mp hal)
    · rw [hchild₁]
      exact links_other (d := .left)
    · intro hne heq
      rw [hchild₁] at heq
      exact hreprr.ne_zero (root_mem hne) (heq.symm.trans links_self)
    · intro _
      rw [hchild₁, links_self]
    · apply hreprr.congr
      intro b hb
      refine hc₁.elsewhere b (by rintro rfl; exact har hb) ?_
      rw [mem_postorder]
      exact fun hb' => hapart hb' hb
    · intro b hb
      apply hc₁.mem_allocated (hlive b ((hmem b).mpr (Or.inr (Or.inr hb))))
      rw [mem_postorder]
      exact fun hb' => hapart hb' hb
  obtain ⟨s₂, hgo₂, hc₂⟩ := hr s₁ a .right hright
  have hcell₂ : { s₁.rbt.nodes a with child := Function.update (s₁.rbt.nodes a).child .right 0 } =
      (⟨p, links .left 0 0, x, red⟩ : SmRbtNode) := by
    rw [hcell₁]
    have hlinks : Function.update (links .left 0 (root r)) .right 0 = links .left 0 0 :=
      update_links_other (d := .left)
    simp only [hlinks]
  rw [hcell₂] at hc₂
  refine ⟨s₂, ?_, hc₁.trans hc₂⟩
  rw [List.length_append, Nat.mul_add]
  exact hgo₁.trans hgo₂

/-- The induction of the pass is on the subtree: one round goes down to its root, the children go, and
one more round takes the root away. -/
theorem clears (deleteFn : Option (PsmAddress → σ → σ)) (t : RbTree) : Clears deleteFn t := by
  induction t with
  | nil =>
    intro s a d h
    refine ⟨s, Goes.refl s, Cleared.refl h.node ?_⟩
    have hchild : (s.rbt.nodes a).child d = 0 := h.child
    rw [← hchild, Function.update_eq_self]
  | node b red' y l r ihl ihr =>
    intro s a d h
    have hb : b ∈ (node b red' y l r).addrs := root_mem (t := node b red' y l r) (by simp)
    have hchild : (s.rbt.nodes a).child d = b := h.child
    have hb0 : b ≠ 0 := h.repr.ne_zero hb
    have hab : a ≠ b := fun heq => h.outside (heq ▸ hb)
    have hdown := destroyRound_down deleteFn h.ne_zero h.node h.live (hchild ▸ hb0) h.next
    rw [hchild] at hdown
    have hrepr : Repr ({ s with node := b } : DestroyPass σ).rbt.nodes a (node b red' y l r) := h.repr
    obtain ⟨s₁, hgo, hc⟩ := clears_children ihl ihr rfl hrepr h.nodup h.allocated
    have hsub : ∀ c, c ∈ (l.postorder ++ r.postorder).map Prod.fst → c ∈ (node b red' y l r).addrs := by
      intro c hin
      rw [← mem_postorder, postorder, List.map_append]
      exact List.mem_append_left _ hin
    have hnodup := (addrs_postorder (node b red' y l r)).nodup_iff.mpr h.nodup
    rw [postorder, List.map_append, List.nodup_append'] at hnodup
    have hbnot : b ∉ (l.postorder ++ r.postorder).map Prod.fst := by
      intro hin
      exact hnodup.2.2 hin (by simp)
    have hsame : s₁.rbt.nodes a = s.rbt.nodes a := hc.elsewhere a hab (fun hin => h.outside (hsub a hin))
    have hlive : a ∈ s₁.rbt.allocated := hc.mem_allocated h.live (fun hin => h.outside (hsub a hin))
    have hlive' : b ∈ s₁.rbt.allocated := hc.mem_allocated (h.allocated b hb) hbnot
    obtain ⟨s₂, hleaf, hc'⟩ := destroyLeaf_cleared deleteFn hc.node hc.cell h.ne_zero hab hlive hlive'
      (by rw [hsame]; exact hchild) (by rw [hsame]; exact h.other (by simp))
    have hround : destroyRound deleteFn s₁ = .inl s₂ := by
      rw [destroyRound_leaf deleteFn hb0 hc.node hlive' hc.cell, hleaf]
    rw [hsame] at hc'
    refine ⟨s₂, ?_, ?_⟩
    · have hrounds : 2 * (node b red' y l r).postorder.length = 1 + (2 * (l.postorder ++ r.postorder).length + 1) := by
        simp only [postorder, List.length_append, List.length_singleton]
        omega
      rw [hrounds]
      exact (Goes.round hdown).trans (hgo.trans (Goes.round hround))
    · exact hc.leaf hc'

/-- A child comes before its parent. -/
theorem child_before_parent {nodes : Partition} (h : Repr nodes p t) (ha : a ∈ t.addrs)
    (hchild : (nodes a).child d ≠ 0) : [(nodes a).child d, a].Sublist (t.postorder.map Prod.fst) := by
  induction t generalizing p with
  | nil => cases ha
  | node b red' y l r ihl ihr =>
    obtain ⟨-, hcell, hl, hr⟩ := h
    rw [postorder, List.map_append, List.map_append]
    rcases (mem_addrs_branch (d := .left)).mp ha with rfl | ha | ha
    · have hin : (nodes a).child d ∈ (l.postorder.map Prod.fst) ++ r.postorder.map Prod.fst := by
        rw [hcell] at hchild ⊢
        rw [List.mem_append, mem_postorder, mem_postorder]
        cases d with
        | left =>
          dsimp only at hchild ⊢
          rw [links_self] at hchild ⊢
          exact Or.inl (root_mem (mt hl.root_eq_zero.mpr hchild))
        | right =>
          have hlinks : links .left (root l) (root r) .right = root r := links_other (d := .left)
          dsimp only at hchild ⊢
          rw [hlinks] at hchild ⊢
          exact Or.inr (root_mem (mt hr.root_eq_zero.mpr hchild))
      exact (List.singleton_sublist.mpr hin).append (List.Sublist.refl [a])
    · exact ((ihl hl ha).trans (List.sublist_append_left _ _)).trans (List.sublist_append_left _ _)
    · exact ((ihr hr ha).trans (List.sublist_append_right _ _)).trans (List.sublist_append_left _ _)

/-- What the destruction of the nodes of a tree comes to: all of them are released, children first, and
the delete function was called in that order for the data of each. -/
structure Destroyed (deleteFn : Option (PsmAddress → σ → σ)) (rbt : SmRbt) (t : RbTree) (world : σ)
    (s : DestroyPass σ) : Prop where
  root : s.rbt.root = 0
  freed : s.freed.Perm t.addrs
  once : s.freed.Nodup
  children_first : ∀ a ∈ t.addrs, ∀ d, (rbt.nodes a).child d ≠ 0 → [(rbt.nodes a).child d, a].Sublist s.freed
  world : s.world = s.freed.foldl (fun world a => callDeleteFn deleteFn (rbt.nodes a).data world) world
  allocated : s.rbt.allocated = []
  elsewhere : ∀ a, a ∉ t.addrs → s.rbt.nodes a = rbt.nodes a

theorem foldl_postorder {nodes : Partition} (h : Repr nodes p t) (world : σ) :
    t.postorder.foldl (fun world entry => callDeleteFn deleteFn entry.2 world) world =
      (t.postorder.map Prod.fst).foldl (fun world a => callDeleteFn deleteFn (nodes a).data world) world := by
  rw [List.foldl_map]
  apply List.foldl_ext
  intro world entry hentry
  rw [h.data ((postorder_perm t).mem_iff.mp hentry)]

/-- The last round takes away the root. -/
theorem destroyLeaf_root (hcell : s.rbt.nodes s.node = ⟨0, links .left 0 0, x, red⟩) :
    destroyLeaf deleteFn s = .inr (some ⟨⟨0, s.rbt.length, eraseTreeNode s.rbt.nodes s.node,
      s.rbt.allocated.erase s.node⟩, s.node, callDeleteFn deleteFn x s.world, s.freed ++ [s.node]⟩) := by
  simp only [destroyLeaf, hcell, if_true]

theorem destroyRbtNodes_destroyed {rbt : SmRbt} (h : Consistent rbt t) (deleteFn : Option (PsmAddress → σ → σ))
    (world : σ) : ∃ s, destroyRbtNodes deleteFn rbt world = some s ∧ Destroyed deleteFn rbt t world s := by
  have hlength : rbt.allocated.length = t.postorder.length := by
    rw [h.allocated.length_eq, ← (addrs_postorder t).length_eq, List.length_map]
  obtain ⟨hroot, hrepr, hnodup, hallocated⟩ := h
  unfold destroyRbtNodes
  rw [hlength]
  cases t with
  | nil =>
    have hend : destroyRound deleteFn ⟨rbt, rbt.root, world, []⟩ = .inr (some ⟨rbt, rbt.root, world, []⟩) := by
      simp only [destroyRound, hroot, root_nil, if_true]
    rw [loop_inr hend]
    refine ⟨_, rfl, hroot, List.Perm.refl _, List.nodup_nil, ?_, rfl, List.perm_nil.mp hallocated, fun _ _ => rfl⟩
    intro a ha
    cases ha
  | node a red x l r =>
    have hlive : ∀ b ∈ (node a red x l r).addrs, b ∈ rbt.allocated := fun b hb => hallocated.mem_iff.mpr hb
    obtain ⟨s₁, hgo, hc⟩ := clears_children (clears deleteFn l) (clears deleteFn r)
      (show (⟨rbt, rbt.root, world, []⟩ : DestroyPass σ).node = a from hroot) hrepr hnodup hlive
    have hsplit : (node a red x l r).postorder = l.postorder ++ r.postorder ++ [(a, x)] := rfl
    have hnodup' := (addrs_postorder (node a red x l r)).nodup_iff.mpr hnodup
    have ha : a ∉ (l.postorder ++ r.postorder).map Prod.fst := by
      rw [hsplit, List.map_append, List.nodup_append'] at hnodup'
      exact fun hin => hnodup'.2.2 hin (by simp)
    have hlive' : a ∈ s₁.rbt.allocated := hc.mem_allocated (hlive a (root_mem (t := node a red x l r) (by simp))) ha
    have hfreed : s₁.freed ++ [s₁.node] = (node a red x l r).postorder.map Prod.fst := by
      rw [hc.freed, hc.node, hsplit]
      simp
    have hworld : callDeleteFn deleteFn x s₁.world =
        (node a red x l r).postorder.foldl (fun world entry => callDeleteFn deleteFn entry.2 world) world := by
      rw [hsplit, List.foldl_append, ← hc.world]
      rfl
    have hleft : (s₁.rbt.allocated.erase s₁.node).length = 0 := by
      have hcount := hc.allocated.length_eq
      rw [List.length_append, List.length_map, hlength, hsplit, List.length_append, List.length_singleton] at hcount
      rw [List.length_erase_of_mem (hc.node ▸ hlive')]
      omega
    have hleaf := destroyRound_leaf deleteFn hrepr.1 hc.node hlive' hc.cell
    rw [destroyLeaf_root (hc.node ▸ hc.cell)] at hleaf
    have hrounds : 2 * (node a red x l r).postorder.length + 1 = 2 * (l.postorder ++ r.postorder).length + (2 + 1) := by
      rw [hsplit, List.length_append, List.length_singleton]
      omega
    rw [hrounds, hgo, loop_inr hleaf]
    refine ⟨_, rfl, rfl, ?_, ?_, ?_, ?_, List.length_eq_zero_iff.mp hleft, ?_⟩
    · exact hfreed ▸ addrs_postorder _
    · exact hfreed ▸ hnodup'
    · exact hfreed ▸ fun b hb d hchild => child_before_parent hrepr hb hchild
    · dsimp only
      rw [hworld, hfreed, foldl_postorder hrepr]
    · intro b hb
      have hbgone : b ∉ (l.postorder ++ r.postorder).map Prod.fst := by
        intro hin
        apply hb
        rw [← mem_postorder, hsplit, List.map_append]
        exact List.mem_append_left _ hin
      have hba : b ≠ a := by
        intro heq
        exact hb (heq ▸ root_mem (t := node a red x l r) (by simp))
      have herased : eraseTreeNode s₁.rbt.nodes s₁.node b = s₁.rbt.nodes b :=
        Function.update_of_ne (hc.node.symm ▸ hba) _ _
      exact herased.trans (hc.elsewhere b hba hbgone)

/-- A root with one child, on the right, and the destruction of the two. -/
theorem destroyRbtNodes_destroyed_two : ∃ (rbt : SmRbt) (t : RbTree) (s : DestroyPass (List PsmAddress)),
    Consistent rbt t ∧ t.addrs = [8, 9] ∧ destroyRbtNodes (some fun data world => world ++ [data]) rbt [] = some s ∧
      s.freed = [9, 8] ∧ s.world = [60, 50] ∧ Destroyed (some fun data world => world ++ [data]) rbt t [] s := by
  have h : Consistent ⟨8, 2, fun a => if a = 8 then ⟨0, links .left 0 9, 50, false⟩ else ⟨8, links .left 0 0, 60, true⟩,
      [8, 9]⟩ (node 8 false 50 nil (node 9 true 60 nil nil)) := by
    refine ⟨rfl, ⟨by decide, rfl, trivial, by decide, rfl, trivial, trivial⟩, by decide, List.Perm.refl _⟩
  obtain ⟨s, hs, hdestroyed⟩ := destroyRbtNodes_destroyed h (some fun data world => world ++ [data]) []
  have hresult := congrArg (Option.map fun s => (s.freed, s.world)) hs
  have hvalue : some ([9, 8], [60, 50]) = some (s.freed, s.world) := hresult
  simp only [Option.some.injEq, Prod.mk.injEq] at hvalue
  exact ⟨_, _, s, h, rfl, hs, hvalue.1.symm, hvalue.2.symm, hdestroyed⟩

end SmrbtDestroy
