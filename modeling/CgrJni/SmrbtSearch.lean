import CgrJni.SmrbtOrder

/-!
Searching and enumerating: where the pointers lead, and the order in which the
elements are met.
-/

namespace SmrbtSearch

open RedBlack RedBlack.Tree LinkedTree Smrbt SmrbtMoves SmrbtOrder

/-- The address of the first element, zero if there is none. -/
def first : List (Nat × PsmAddress) → PsmAddress
  | [] => 0
  | a :: _ => a.1

@[simp] theorem first_nil : first [] = 0 := rfl
@[simp] theorem first_cons {a : Nat × PsmAddress} {l : List (Nat × PsmAddress)} : first (a :: l) = a.1 := rfl

variable {nodes : Partition} {p : PsmAddress} {t near far : RbTree} {fs : Path} {d : Dir} {a : Nat} {red : Bool}
variable {x : PsmAddress}

theorem first_middle {A B C : List (Nat × PsmAddress)} {y : PsmAddress} :
    first (A ++ (a, x) :: B) = first (A ++ (a, y) :: C) := by cases A <;> rfl

theorem first_append_zero {A : List (Nat × PsmAddress)} : first (A ++ [(0, x)]) = first A := by cases A <;> rfl

theorem first_append {A B : List (Nat × PsmAddress)} (h : A ≠ []) : first (A ++ B) = first A := by
  cases A with
  | nil => exact absurd rfl h
  | cons b A => rfl

theorem walk_ne_nil (h : t ≠ nil) : t.walk d ≠ [] := by
  obtain ⟨a, red, x, near, far, rfl⟩ := exists_branch d h
  simp

theorem length_branch (e : Dir) : ((branch d a red x near far).walk e).length =
    (near.walk e).length + (far.walk e).length + 1 := by
  rw [((walk_perm e d) _).length_eq, walk_branch, (walk_perm e d near).length_eq, (walk_perm e d far).length_eq]
  simp only [List.length_append, List.length_cons]
  omega

/-- Always going to one side ends at the element that comes first when that side comes first. -/
theorem outermost_loop (h : Repr nodes p t) (prev : PsmAddress) (fuel : Nat) (hfuel : (t.walk .right).length < fuel) :
    Runs.loop (outermostRound nodes d) fuel (prev, root t) = some (first (t.walk d.other ++ [(prev, 0)])) := by
  induction t using side_induction d generalizing p prev fuel with
  | nil =>
    obtain ⟨fuel, rfl⟩ := Nat.exists_eq_add_of_lt hfuel
    exact Runs.loop_inr (by simp [outermostRound])
  | branch a red x near far ihn ihf =>
    obtain ⟨ha, hcell, hnear, -⟩ := repr_branch.mp h
    rw [length_branch] at hfuel
    obtain ⟨fuel, rfl⟩ : ∃ n, fuel = n + 1 := ⟨fuel - 1, by omega⟩
    have hround : outermostRound nodes d (prev, root (branch d a red x near far)) = .inl (a, root near) := by
      simp [outermostRound, ha, hcell]
    rw [Runs.loop_inl hround, ihn hnear a fuel (by omega), branch_swap, walk_branch, List.append_assoc, List.cons_append]
    exact congrArg some first_middle

/-- Popping up ends at what follows the place. -/
theorem pop_loop (h : Repr nodes 0 (plug fs t)) (hnodup : (plug fs t).addrs.Nodup) (ht : t ≠ nil) (fuel : Nat)
    (hfuel : fs.length < fuel) :
    Runs.loop (popRound nodes d) fuel (root t, top fs) = some (first (rest d fs)) := by
  induction fs generalizing t fuel with
  | nil =>
    obtain ⟨fuel, rfl⟩ := Nat.exists_eq_add_of_lt hfuel
    exact Runs.loop_inr (by simp [popRound])
  | cons f fs ih =>
    rw [List.length_cons] at hfuel
    obtain ⟨fuel, rfl⟩ : ∃ n, fuel = n + 1 := ⟨fuel - 1, by omega⟩
    obtain ⟨hf, hcell, hsib, -⟩ := (repr_plug.mp h).1
    by_cases hd : f.dir = d
    · -- the place was on the side of the direction, so the search goes on above
      have hne : root t ≠ root f.sib := by
        intro heq
        have hnd := (addrs_plug_perm fs (f.fill t)).nodup_iff.mp hnodup
        have hfill := addrs_branch_perm.nodup_iff.mp (List.nodup_append'.mp hnd).2.1
        have hsibne : f.sib ≠ nil := by
          rintro hnil
          rw [hnil, root_nil] at heq
          exact ht ((repr_plug.mp h).2.root_eq_zero.mp heq)
        exact (List.nodup_append'.mp (List.nodup_cons.mp hfill).2).2.2 (root_mem ht) (heq ▸ root_mem hsibne)
      have hround : popRound nodes d (root t, top (f :: fs)) = .inl (f.addr, top fs) := by
        simp [popRound, hf, hcell, ← hd, hne]
      have hup := ih h hnodup (t := f.fill t) branch_ne_nil fuel (by omega)
      rw [Frame.fill, root_branch] at hup
      rw [Runs.loop_inl hround, hup, rest, if_pos hd]
    · have hround : popRound nodes d (root t, top (f :: fs)) = .inr f.addr := by
        simp [popRound, hf, hcell, Dir.eq_other_of_ne hd]
      rw [Runs.loop_inr hround, rest, if_neg hd, List.cons_append, first_cons]

theorem length_le_walk_plug (fs : Path) (t : RbTree) :
    fs.length + (t.walk .right).length ≤ ((plug fs t).walk .right).length := by
  induction fs generalizing t with
  | nil => simp
  | cons f fs ih =>
    have hfill : ((f.fill t).walk .right).length = (t.walk .right).length + (f.sib.walk .right).length + 1 :=
      length_branch .right
    have hplug := ih (f.fill t)
    rw [hfill] at hplug
    rw [List.length_cons, plug_cons]
    omega

variable {κ : Type} [LinearOrder κ] {compare : PsmAddress → κ → Int} {key : PsmAddress → κ} {k : κ}
variable {rbt : SmRbt}

/-- From an element, the traversal goes to the next one in its direction. -/
theorem traverseRbt_spec (h : Sound key rbt t) (ht : t = plug fs (branch d a red x near far)) :
    traverseRbt rbt a d = some (first (near.walk d ++ rest d fs)) := by
  have hrepr := h.repr
  have hnodup := h.nodup
  have hlen := length_le_walk_plug fs (branch d a red x near far)
  rw [← ht, length_branch, ← h.length] at hlen
  rw [ht] at hrepr hnodup
  obtain ⟨ha, hcell, hnear, -⟩ := repr_branch.mp (repr_plug.mp hrepr).2
  have hchild : (rbt.nodes a).child d = root near := by simp [hcell]
  have hparent : (rbt.nodes a).parent = top fs := by rw [hcell]
  rw [traverseRbt, hchild, hparent]
  by_cases hn : near = nil
  · subst hn
    rw [if_pos root_nil, walk_nil, List.nil_append]
    have hpop := pop_loop (d := d) hrepr hnodup branch_ne_nil (rbt.length + 1) (by omega)
    rwa [root_branch] at hpop
  · rw [if_neg (mt hnear.root_eq_zero.mp hn), outermost_loop hnear 0 (rbt.length + 1) (by omega),
      first_append_zero, Dir.other_other, first_append (walk_ne_nil hn)]

theorem smRbtTraverse_spec (h : Sound key rbt t) {A B : List (Nat × PsmAddress)} (hwalk : t.walk d = A ++ (a, x) :: B) :
    smRbtTraverse rbt a d = some (first B) := by
  obtain ⟨fs, red, near, far, ht, hB⟩ := exists_place_of_walk h.nodup hwalk
  have ha : a ≠ 0 := by
    apply h.repr.ne_zero
    rw [(addrs_perm d t).mem_iff, hwalk]
    simp
  rw [smRbtTraverse, if_neg ha, traverseRbt_spec h ht, hB]

theorem smRbtFirst_spec (h : Sound key rbt t) : smRbtFirst rbt = some (first (t.walk .right)) := by
  rw [smRbtFirst, h.root, outermost_loop h.repr 0 _ (by rw [h.length]; exact Nat.lt_succ_self _),
    first_append_zero, Dir.other_left]

theorem smRbtLast_spec (h : Sound key rbt t) : smRbtLast rbt = some (first (t.walk .left)) := by
  rw [smRbtLast, h.root, outermost_loop h.repr 0 _ (by rw [h.length]; exact Nat.lt_succ_self _),
    first_append_zero, Dir.other_right]

/-- A search on its way: it is at a place, and knows the node above it and the side taken there. -/
structure Searching (key : PsmAddress → κ) (k : κ) (T : RbTree) (fs : Path) (t : RbTree)
    (s : SearchPass) : Prop where
  whole : plug fs t = T
  node : s.node = root t
  prevNode : s.prevNode = top fs
  direction : fs ≠ [] → s.direction = topDir fs
  located : Located key k fs
  missed : ∀ a ∈ rest .right fs, k < key a.2

/-- What a search comes to: the element with the key, or the place where it is missing. -/
def Found (key : PsmAddress → κ) (k : κ) (T : RbTree) (s : SearchPass) : Prop :=
  (∃ x, (s.node, x) ∈ T.walk .right ∧ key x = k) ∨
    ∃ fs, s.node = 0 ∧ Searching key k T fs nil s

variable {T : RbTree} {s : SearchPass}

/-- Below a node that has another key, everything that follows the place is greater than the key. -/
theorem missed_below (hc : Compares compare key) (hs : Searching key k T fs t s) (hasc : Ascending key (t.walk .right))
    (ht : t = branch (branchTo compare k x) a red x near far) (hx : key x ≠ k) :
    ∀ b ∈ rest .right (⟨branchTo compare k x, a, red, x, far⟩ :: fs), k < key b.2 := by
  cases hd : branchTo compare k x with
  | right =>
    intro b hb
    exact hs.missed b (by simpa [rest] using hb)
  | left =>
    have hlt : k < key x := lt_of_le_of_ne ((branchTo_eq_left hc).mp hd) (Ne.symm hx)
    rw [ht, hd] at hasc
    rw [rest_cons_right rfl]
    intro b hb
    simp only [List.mem_append, List.mem_cons] at hb
    obtain (rfl | hb) | hb := hb
    · exact hlt
    · exact hlt.trans (key_lt_far hasc hb)
    · exact hs.missed b hb

theorem search_round (hc : Compares compare key) (h : Sound key rbt T) (hs : Searching key k T fs t s) :
    (∃ fs' u s', searchRound compare k rbt.nodes s = .inl s' ∧ Searching key k T fs' u s' ∧
        wayDown compare k u < wayDown compare k t) ∨
      ∃ s', searchRound compare k rbt.nodes s = .inr s' ∧ Found key k T s' := by
  have hrepr := h.repr
  rw [← hs.whole, repr_plug] at hrepr
  by_cases ht : t = nil
  · subst ht
    have hzero : s.node = 0 := hs.node
    exact Or.inr ⟨s, by simp [searchRound, hzero], Or.inr ⟨fs, hzero, hs⟩⟩
  · obtain ⟨a, red, x, near, far, ht'⟩ := exists_branchTo compare k ht
    obtain ⟨ha, hcell, -, -⟩ := repr_branch.mp (ht' ▸ hrepr.2)
    have hnode : s.node = a := by rw [hs.node, ht', root_branch]
    by_cases hk : compare x k = 0
    · right
      refine ⟨s, by simp [searchRound, hnode, ha, hcell, hk], Or.inl ⟨x, ?_, (hc.zero_iff x k).mp hk⟩⟩
      have hmem : (a, x) ∈ t.walk .right := by
        rw [ht']
        exact (walk_perm (branchTo compare k x) .right _).mem_iff.mp (by simp)
      rw [hnode, ← hs.whole, walk_plug]
      simp [hmem]
    · left
      have hround : searchRound compare k rbt.nodes s = .inl ⟨root near, a, branchTo compare k x⟩ := by
        have hdir : (if compare x k < 0 then Dir.right else Dir.left) = branchTo compare k x := rfl
        simp [searchRound, hnode, ha, hcell, hk, hdir]
      refine ⟨⟨branchTo compare k x, a, red, x, far⟩ :: fs, near, _, hround, ⟨?_, rfl, rfl, fun _ => rfl, ?_, ?_⟩, ?_⟩
      · rw [← hs.whole, ht']
        rfl
      · apply hs.located.descend hc
        rw [← ht', hs.whole]
        exact h.ascending
      · apply missed_below hc hs (ascending_place (hs.whole ▸ h.ascending)) ht'
        exact fun he => hk ((hc.zero_iff x k).mpr he)
      · rw [ht', wayDown_branch rfl]
        exact Nat.lt_succ_self _

theorem search_loop (hc : Compares compare key) (h : Sound key rbt T) (k : κ) :
    ∃ s, Runs.loop (searchRound compare k rbt.nodes) (rbt.length + 1) ⟨rbt.root, 0, .left⟩ = some s ∧
      Found key k T s := by
  have hstart : Searching key k T [] T ⟨rbt.root, 0, .left⟩ := ⟨rfl, h.root, rfl, by simp, located_nil k, by simp⟩
  have hway := wayDown_le compare k T
  apply Runs.loop_bounded (fun n s => ∃ fs t, Searching key k T fs t s ∧ n = wayDown compare k t) _ _ _ _
    ⟨[], T, hstart, rfl⟩ _ (by rw [h.length]; omega)
  rintro n s ⟨fs, t, hs, rfl⟩
  obtain ⟨fs', u, s', hround, hs', hlt⟩ | ⟨s', hround, hfound⟩ := search_round hc h hs
  · exact Or.inl ⟨s', _, hround, ⟨fs', u, hs', rfl⟩, hlt⟩
  · exact Or.inr ⟨s', hround, hfound⟩

/-- A search finds the element with the key, or else the element that follows its place. -/
theorem smRbtSearch_spec (hc : Compares compare key) (h : Sound key rbt T) (k : κ) :
    (∃ a x, smRbtSearch compare k rbt = some (a, 0) ∧ (a, x) ∈ T.walk .right ∧ key x = k) ∨
      ∃ A B, smRbtSearch compare k rbt = some (0, first B) ∧ T.walk .right = A ++ B ∧ (∀ a ∈ A, key a.2 < k) ∧
        ∀ b ∈ B, k < key b.2 := by
  obtain ⟨s, hloop, ⟨x, hmem, hx⟩ | ⟨fs, hnode, hs⟩⟩ := search_loop hc h k
  · left
    have ha : s.node ≠ 0 := by
      apply h.repr.ne_zero
      exact List.mem_map.mpr ⟨(s.node, x), hmem, rfl⟩
    exact ⟨s.node, x, by simp [smRbtSearch, hloop, ha], hmem, hx⟩
  · right
    refine ⟨(rest .left fs).reverse, rest .right fs, ?_, ?_, ?_, hs.missed⟩
    · rw [smRbtSearch, hloop, Option.bind_some, if_neg (not_not.mpr hnode), hs.prevNode]
      cases fs with
      | nil => simp
      | cons f r =>
        have hf : f.addr ≠ 0 := by
          have hrepr := h.repr
          rw [← hs.whole, repr_plug] at hrepr
          exact hrepr.1.1
        rw [hs.direction (by simp), topDir_cons, top_cons]
        cases hd : f.dir with
        | left => rw [if_pos (Or.inl rfl), rest_cons_right hd, List.cons_append, first_cons]
        | right =>
          have hplace : T = plug r (branch .right f.addr f.isRed f.data nil f.sib) := by
            rw [← hs.whole, plug_cons, Frame.fill, hd]
          rw [if_neg (by simp [hf]), traverseRbt_spec h hplace]
          simp [rest, hd]
    · rw [← hs.whole, walk_plug, walk_nil, List.append_nil]
      rfl
    · intro a ha
      exact hs.located.before a (List.mem_reverse.mp ha)

end SmrbtSearch
