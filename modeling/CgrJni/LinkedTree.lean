import CgrJni.RedBlack

/-!
Trees in a memory of linked cells: every cell knows its parent and its two
children by address, and zero is the address of nothing. The root of a tree
hangs on the right of a cell at address zero, which is not part of the tree.
-/

namespace LinkedTree

open RedBlack RedBlack.Tree

structure Cell (α : Type) where
  parent : Nat
  child : Dir → Nat
  data : α
  isRed : Bool

abbrev Memory (α : Type) := Nat → Cell α

variable {α : Type}

def setParent (mem : Memory α) (a p : Nat) : Memory α := Function.update mem a { mem a with parent := p }

def setChild (mem : Memory α) (a : Nat) (d : Dir) (c : Nat) : Memory α :=
  Function.update mem a { mem a with child := Function.update (mem a).child d c }

def setRed (mem : Memory α) (a : Nat) (red : Bool) : Memory α :=
  Function.update mem a { mem a with isRed := red }

def setData (mem : Memory α) (a : Nat) (x : α) : Memory α := Function.update mem a { mem a with data := x }

/-- The children of a cell, one on the given side and one on the other. -/
def links (d : Dir) (near far : Nat) : Dir → Nat := fun e => if e = d then near else far

variable {mem mem' : Memory α} {a b p c : Nat} {d : Dir} {near far : Nat}

@[simp] theorem setParent_self : setParent mem a p a = { mem a with parent := p } := by simp [setParent]
@[simp] theorem setChild_self :
    setChild mem a d c a = { mem a with child := Function.update (mem a).child d c } := by simp [setChild]
@[simp] theorem setRed_self {red : Bool} : setRed mem a red a = { mem a with isRed := red } := by simp [setRed]
@[simp] theorem setData_self {x : α} : setData mem a x a = { mem a with data := x } := by simp [setData]

theorem setChild_of_ne (h : b ≠ a) : setChild mem a d c b = mem b := by simp [setChild, h]
theorem setRed_of_ne {red : Bool} (h : b ≠ a) : setRed mem a red b = mem b := by simp [setRed, h]
theorem setData_of_ne {x : α} (h : b ≠ a) : setData mem a x b = mem b := by simp [setData, h]

@[simp] theorem links_self : links d near far d = near := by simp [links]
@[simp] theorem links_other : links d near far d.other = far := by simp [links]
@[simp] theorem links_swap : links d.other near far = links d far near := by
  funext e
  by_cases h : e = d
  · subst h
    simp [links]
  · rw [Dir.eq_other_of_ne h]
    simp [links]

@[simp] theorem update_links_self : Function.update (links d near far) d c = links d c far := by
  funext e
  by_cases h : e = d <;> simp [links, h]

@[simp] theorem update_links_other : Function.update (links d near far) d.other c = links d near c := by
  rw [← links_swap, update_links_self, links_swap]

/-- The address of the root. -/
def root : Tree Nat α → Nat
  | nil => 0
  | node a _ _ _ _ => a

@[simp] theorem root_nil : root (nil : Tree Nat α) = 0 := rfl
@[simp] theorem root_branch {red : Bool} {x : α} {near far : Tree Nat α} :
    root (branch d a red x near far) = a := by cases d <;> rfl
@[simp] theorem root_paint {red : Bool} {t : Tree Nat α} : root (t.paint red) = root t := by cases t <;> rfl

/-- The memory holds the tree, below a parent. -/
def Repr (mem : Memory α) (p : Nat) : Tree Nat α → Prop
  | nil => True
  | node a red x l r =>
    a ≠ 0 ∧ mem a = ⟨p, links .left (root l) (root r), x, red⟩ ∧ Repr mem a l ∧ Repr mem a r

@[simp] theorem repr_nil : Repr mem p (nil : Tree Nat α) := trivial

@[simp] theorem repr_branch {red : Bool} {x : α} {near far : Tree Nat α} :
    Repr mem p (branch d a red x near far) ↔ a ≠ 0 ∧ mem a = ⟨p, links d (root near) (root far), x, red⟩ ∧
      Repr mem a near ∧ Repr mem a far := by
  cases d
  · exact Iff.rfl
  · have hswap : links .right (root near) (root far) = links .left (root far) (root near) :=
      links_swap (d := .left)
    rw [hswap]
    exact and_congr_right (fun _ => and_congr_right (fun _ => and_comm))

variable {t u : Tree Nat α}

theorem root_mem (h : t ≠ nil) : root t ∈ t.addrs := by
  obtain ⟨a, red, x, near, far, rfl⟩ := exists_branch .left h
  simp

theorem Repr.ne_zero (h : Repr mem p t) (ha : a ∈ t.addrs) : a ≠ 0 := by
  induction t generalizing p with
  | nil => cases ha
  | node b red x l r ihl ihr =>
    obtain ⟨hb, -, hl, hr⟩ := h
    rcases mem_addrs_branch.mp (show a ∈ (branch .left b red x l r).addrs from ha) with rfl | ha | ha
    · exact hb
    · exact ihl hl ha
    · exact ihr hr ha

theorem Repr.root_eq_zero (h : Repr mem p t) : root t = 0 ↔ t = nil := by
  constructor
  · intro h0
    by_contra hne
    exact h.ne_zero (root_mem hne) h0
  · rintro rfl
    rfl

/-- What happens outside a tree does not touch it. -/
theorem Repr.congr (h : Repr mem p t) (hmem : ∀ a ∈ t.addrs, mem' a = mem a) : Repr mem' p t := by
  induction t generalizing p with
  | nil => trivial
  | node b red x l r ihl ihr =>
    obtain ⟨hb, hcell, hl, hr⟩ := h
    have hin : ∀ a, a = b ∨ a ∈ l.addrs ∨ a ∈ r.addrs → mem' a = mem a := by
      intro a ha
      exact hmem a ((mem_addrs_branch (d := .left)).mpr ha)
    refine ⟨hb, (hin b (Or.inl rfl)).trans hcell, ?_, ?_⟩
    · exact ihl hl (fun a ha => hin a (Or.inr (Or.inl ha)))
    · exact ihr hr (fun a ha => hin a (Or.inr (Or.inr ha)))

/-- A tree is moved below another parent by writing to its root alone. -/
theorem Repr.reparent (h : Repr mem p t) (hnodup : t.addrs.Nodup) {q : Nat}
    (hroot : t ≠ nil → mem' (root t) = { mem (root t) with parent := q })
    (hmem : ∀ a ∈ t.addrs, a ≠ root t → mem' a = mem a) : Repr mem' q t := by
  cases t with
  | nil => trivial
  | node b red x l r =>
    obtain ⟨hb, hcell, hl, hr⟩ := h
    have hnodup := ((addrs_branch_perm (d := .left)).nodup_iff.mp hnodup)
    rw [List.nodup_cons, List.mem_append, not_or] at hnodup
    have hin : ∀ a, a ∈ l.addrs ∨ a ∈ r.addrs → a ≠ b → mem' a = mem a := by
      intro a ha hne
      exact hmem a ((mem_addrs_branch (d := .left)).mpr (Or.inr ha)) hne
    refine ⟨hb, ?_, ?_, ?_⟩
    · have hb' : mem' b = { mem b with parent := q } := hroot (by simp)
      rw [hb', hcell]
    · exact hl.congr (fun a ha => hin a (Or.inl ha) (by rintro rfl; exact hnodup.1.1 ha))
    · exact hr.congr (fun a ha => hin a (Or.inr ha) (by rintro rfl; exact hnodup.1.2 ha))

/-- The cell above a place, and the side of it on which the place is. -/
def top : List (Frame Nat α) → Nat
  | [] => 0
  | f :: _ => f.addr

def topDir : List (Frame Nat α) → Dir
  | [] => .right
  | f :: _ => f.dir

@[simp] theorem top_nil : top ([] : List (Frame Nat α)) = 0 := rfl
@[simp] theorem top_cons {f : Frame Nat α} {fs : List (Frame Nat α)} : top (f :: fs) = f.addr := rfl
@[simp] theorem topDir_nil : topDir ([] : List (Frame Nat α)) = .right := rfl
@[simp] theorem topDir_cons {f : Frame Nat α} {fs : List (Frame Nat α)} : topDir (f :: fs) = f.dir := rfl

/-- The memory holds the frames, and has the given address at the place. -/
def ReprCtx (mem : Memory α) : List (Frame Nat α) → Nat → Prop
  | [], _ => True
  | f :: fs, c =>
    f.addr ≠ 0 ∧ mem f.addr = ⟨top fs, links f.dir c (root f.sib), f.data, f.isRed⟩ ∧
      Repr mem f.addr f.sib ∧ ReprCtx mem fs f.addr

variable {f : Frame Nat α} {fs : List (Frame Nat α)}

theorem repr_plug : Repr mem 0 (plug fs t) ↔ ReprCtx mem fs (root t) ∧ Repr mem (top fs) t := by
  induction fs generalizing t with
  | nil => simp [ReprCtx]
  | cons f fs ih =>
    rw [plug_cons, ih]
    simp only [Frame.fill, repr_branch, root_branch, ReprCtx, top_cons]
    tauto

theorem ReprCtx.congr (h : ReprCtx mem fs c) (hmem : ∀ a ∈ ctxAddrs fs, mem' a = mem a) :
    ReprCtx mem' fs c := by
  induction fs generalizing c with
  | nil => trivial
  | cons f fs ih =>
    obtain ⟨hf, hcell, hsib, hfs⟩ := h
    have hin : ∀ a, a = f.addr ∨ a ∈ f.sib.addrs ∨ a ∈ ctxAddrs fs → mem' a = mem a := by
      intro a ha
      exact hmem a (mem_ctxAddrs_cons.mpr ha)
    refine ⟨hf, (hin _ (Or.inl rfl)).trans hcell, ?_, ?_⟩
    · exact hsib.congr (fun a ha => hin a (Or.inr (Or.inl ha)))
    · exact ih hfs (fun a ha => hin a (Or.inr (Or.inr ha)))

theorem ReprCtx.ne_zero (h : ReprCtx mem fs c) (ha : a ∈ ctxAddrs fs) : a ≠ 0 := by
  induction fs generalizing c with
  | nil => cases ha
  | cons f fs ih =>
    obtain ⟨hf, -, hsib, hfs⟩ := h
    rcases mem_ctxAddrs_cons.mp ha with rfl | ha | ha
    · exact hf
    · exact hsib.ne_zero ha
    · exact ih hfs ha

/-- A tree in memory, seen from a place in it, below the cell at address zero. -/
structure Holds (mem : Memory α) (fs : List (Frame Nat α)) (t : Tree Nat α) : Prop where
  ctx : ReprCtx mem fs (root t)
  tree : Repr mem (top fs) t
  ctx_nodup : (ctxAddrs fs).Nodup
  tree_nodup : t.addrs.Nodup
  apart : ∀ a ∈ ctxAddrs fs, a ∉ t.addrs
  base : (mem 0).child = links .right (root (plug fs t)) 0

theorem holds_plug : Holds mem [] (plug fs t) ↔ Holds mem fs t := by
  constructor
  · intro h
    have hrepr := repr_plug.mp h.tree
    have hnodup := (addrs_plug_perm fs t).nodup_iff.mp h.tree_nodup
    rw [List.nodup_append'] at hnodup
    exact ⟨hrepr.1, hrepr.2, hnodup.1, hnodup.2.1, fun a ha ha' => hnodup.2.2 ha ha', h.base⟩
  · intro h
    refine ⟨trivial, repr_plug.mpr ⟨h.ctx, h.tree⟩, List.nodup_nil, ?_, by simp, h.base⟩
    rw [(addrs_plug_perm fs t).nodup_iff, List.nodup_append']
    exact ⟨h.ctx_nodup, h.tree_nodup, fun a ha ha' => h.apart a ha ha'⟩

/-- Going down into a subtree and coming up again. -/
theorem holds_fill : Holds mem fs (f.fill t) ↔ Holds mem (f :: fs) t := by
  rw [← holds_plug, ← plug_cons, holds_plug]

theorem root_plug_cons : root (plug (f :: fs) t) = root (plug (f :: fs) u) := by
  induction fs generalizing f t u with
  | nil => simp [Frame.fill]
  | cons g fs ih =>
    rw [plug_cons, plug_cons (t := u)]
    exact ih

theorem top_mem (h : fs ≠ []) : top fs ∈ ctxAddrs fs := by
  cases fs with
  | nil => exact absurd rfl h
  | cons f fs => simp

/-- Another tree is hung at a place: what is around the place was left alone, and the cell above
gets the new address. -/
theorem Holds.replace (h : Holds mem fs t) (hmem : ∀ a ∈ ctxAddrs fs, mem' a = mem a)
    (hbase : mem' 0 = mem 0) (hu : Repr mem' (top fs) u) (hnodup : u.addrs.Nodup)
    (hapart : ∀ a ∈ ctxAddrs fs, a ∉ u.addrs) :
    Holds (setChild mem' (top fs) (topDir fs) (root u)) fs u := by
  have htop : top fs ∉ u.addrs := by
    cases fs with
    | nil => exact fun h0 => hu.ne_zero h0 rfl
    | cons f fs => exact hapart f.addr (by simp)
  have htree : Repr (setChild mem' (top fs) (topDir fs) (root u)) (top fs) u := by
    apply hu.congr
    intro a ha
    exact setChild_of_ne (by rintro rfl; exact htop ha)
  cases fs with
  | nil =>
    refine ⟨trivial, htree, List.nodup_nil, hnodup, by simp, ?_⟩
    have hchild : (mem' 0).child = links .right (root t) 0 := by
      rw [hbase]
      exact h.base
    simp [hchild]
  | cons f fs =>
    obtain ⟨hf, hcell, hsib, hfs⟩ := h.ctx
    have hctx := ctxAddrs_cons_perm.nodup_iff.mp h.ctx_nodup
    rw [List.nodup_cons, List.mem_append, not_or] at hctx
    refine ⟨⟨hf, ?_, ?_, ?_⟩, htree, h.ctx_nodup, hnodup, hapart, ?_⟩
    · simp [hmem f.addr (by simp), hcell]
    · apply hsib.congr
      intro a ha
      rw [setChild_of_ne (by rintro rfl; exact hctx.1.1 ha)]
      exact hmem a (by simp [ha])
    · apply hfs.congr
      intro a ha
      rw [setChild_of_ne (by rintro rfl; exact hctx.1.2 ha)]
      exact hmem a (by simp [ha])
    · rw [setChild_of_ne (by exact Ne.symm hf), hbase, h.base, root_plug_cons]

/-- A tree with the same root is put at a place: nothing above it changes. -/
theorem Holds.replace_same (h : Holds mem fs t) (hroot : root u = root t)
    (hmem : ∀ a ∈ ctxAddrs fs, mem' a = mem a) (hbase : mem' 0 = mem 0) (hu : Repr mem' (top fs) u)
    (hnodup : u.addrs.Nodup) (hapart : ∀ a ∈ ctxAddrs fs, a ∉ u.addrs) : Holds mem' fs u := by
  have hset : setChild mem' (top fs) (topDir fs) (root u) = mem' := by
    have hchild : Function.update (mem' (top fs)).child (topDir fs) (root u) = (mem' (top fs)).child := by
      cases fs with
      | nil =>
        have hb := h.base
        simp only [plug_nil] at hb
        simp [hbase, hb, hroot]
      | cons f fs => simp [hmem f.addr (by simp), h.ctx.2.1, hroot]
    funext a
    by_cases ha : a = top fs
    · subst ha
      rw [setChild_self, hchild]
    · exact setChild_of_ne ha
  have hreplaced := h.replace hmem hbase hu hnodup hapart
  rwa [hset] at hreplaced

theorem Repr.data {x : α} (h : Repr mem p t) (ha : (a, x) ∈ t.walk d) : (mem a).data = x := by
  induction t generalizing p with
  | nil => cases ha
  | node b red y l r ihl ihr =>
    obtain ⟨hb, hcell, hl, hr⟩ := h
    have ha' : (a, x) ∈ (branch d b red y (kid (node b red y l r) d) (kid (node b red y l r) d.other)).walk d := by
      cases d <;> exact ha
    rw [walk_branch, List.mem_append, List.mem_cons] at ha'
    have hkid : ∀ e, (a, x) ∈ (kid (node b red y l r) e).walk d → (mem a).data = x := by
      intro e he
      cases e
      · exact ihl hl he
      · exact ihr hr he
    obtain hfar | heq | hnear := ha'
    · exact hkid d.other hfar
    · obtain ⟨rfl, rfl⟩ := Prod.mk.inj heq
      rw [hcell]
    · exact hkid d hnear

theorem ReprCtx.data {x : α} (h : ReprCtx mem fs c) (ha : (a, x) ∈ rest d fs) : (mem a).data = x := by
  induction fs generalizing c with
  | nil => cases ha
  | cons f fs ih =>
    obtain ⟨hf, hcell, hsib, hfs⟩ := h
    by_cases hd : f.dir = d
    · rw [rest, if_pos hd] at ha
      exact ih hfs ha
    · rw [rest, if_neg hd, List.mem_append, List.mem_cons] at ha
      obtain (heq | hs) | hr := ha
      · obtain ⟨rfl, rfl⟩ := Prod.mk.inj heq
        rw [hcell]
      · exact hsib.data hs
      · exact ih hfs hr

theorem root_plug_congr (h : root t = root u) : root (plug fs t) = root (plug fs u) := by
  cases fs with
  | nil => exact h
  | cons f fs => exact root_plug_cons

@[simp] theorem top_relabel {y : α} : top (relabel d y fs) = top fs := by
  cases fs with
  | nil => rfl
  | cons f fs => by_cases h : f.dir = d <;> simp [relabel, h]

@[simp] theorem topDir_relabel {y : α} : topDir (relabel d y fs) = topDir fs := by
  cases fs with
  | nil => rfl
  | cons f fs => by_cases h : f.dir = d <;> simp [relabel, h]

theorem root_plug_relabel {y : α} : root (plug (relabel d y fs) t) = root (plug fs t) := by
  induction fs generalizing t with
  | nil => rfl
  | cons f fs ih =>
    by_cases h : f.dir = d
    · rw [relabel_cons_self h, plug_cons, plug_cons, ih]
    · rw [relabel_cons_other h, plug_cons, plug_cons]
      exact root_plug_congr (by simp [Frame.fill])

theorem mem_ctxAddrs_of_rest {x : α} (h : (a, x) ∈ rest d fs) : a ∈ ctxAddrs fs := by
  have hin : a ∈ (rest d fs).map Prod.fst := List.mem_map.mpr ⟨(a, x), h, rfl⟩
  rw [ctxAddrs, List.map_append, List.mem_append]
  cases d
  · exact Or.inl hin
  · exact Or.inr hin

/-- A write to the data of the first element that follows a place. -/
theorem reprCtx_relabel {x y : α} {l : List (Nat × α)} (h : ReprCtx mem fs c) (hnodup : (ctxAddrs fs).Nodup)
    (ha : rest d fs = (a, x) :: l) : ReprCtx (setData mem a y) (relabel d y fs) c := by
  induction fs generalizing c with
  | nil => cases ha
  | cons f fs ih =>
    obtain ⟨hf, hcell, hsib, hfs⟩ := h
    have hnodup' := ctxAddrs_cons_perm.nodup_iff.mp hnodup
    rw [List.nodup_cons, List.mem_append, not_or, List.nodup_append'] at hnodup'
    obtain ⟨⟨hfsib, hffs⟩, -, hfsnd, hapart⟩ := hnodup'
    by_cases hd : f.dir = d
    · rw [rest, if_pos hd] at ha
      have hmem : a ∈ ctxAddrs fs := mem_ctxAddrs_of_rest (x := x) (d := d) (by simp [ha])
      rw [relabel_cons_self hd]
      refine ⟨hf, ?_, ?_, ih hfs hfsnd ha⟩
      · rw [setData_of_ne (by rintro rfl; exact hffs hmem), hcell, top_relabel]
      · apply hsib.congr
        intro b hb
        exact setData_of_ne (by rintro rfl; exact hapart hb hmem)
    · rw [rest, if_neg hd, List.cons_append, List.cons.injEq, Prod.mk.injEq] at ha
      obtain ⟨⟨rfl, rfl⟩, -⟩ := ha
      rw [relabel_cons_other hd]
      refine ⟨hf, ?_, ?_, ?_⟩
      · rw [setData_self, hcell]
      · exact hsib.congr (fun b hb => setData_of_ne (ne_of_mem_of_not_mem hb hfsib))
      · exact hfs.congr (fun b hb => setData_of_ne (ne_of_mem_of_not_mem hb hffs))

theorem holds_relabel {x y : α} {l : List (Nat × α)} (h : Holds mem fs t) (ha : rest d fs = (a, x) :: l) :
    Holds (setData mem a y) (relabel d y fs) t := by
  have hmem : a ∈ ctxAddrs fs := mem_ctxAddrs_of_rest (x := x) (d := d) (by simp [ha])
  refine ⟨reprCtx_relabel h.ctx h.ctx_nodup ha, ?_, ?_, h.tree_nodup, ?_, ?_⟩
  · rw [top_relabel]
    apply h.tree.congr
    intro b hb
    exact setData_of_ne (by rintro rfl; exact h.apart b hmem hb)
  · rw [ctxAddrs_relabel]
    exact h.ctx_nodup
  · rw [ctxAddrs_relabel]
    exact h.apart
  · rw [setData_of_ne (Ne.symm (h.ctx.ne_zero hmem)), h.base, root_plug_relabel]

end LinkedTree
