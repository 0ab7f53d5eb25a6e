import Mathlib

/-!
The keys of a sorted map visited in turn: from a key to the next higher one, and
from the last one back to the first.
-/

namespace CyclicOrder

variable {α : Type} [LinearOrder α] {keys pre post : List α} {a b : α}

def higherKey (keys : List α) (a : α) : Option α := keys.find? (fun b => a < b)

def next (keys : List α) (a : α) : Option α := (higherKey keys a).or keys.head?

/-- So many keys, from one on. -/
def walk (keys : List α) : Nat → Option α → List α
  | 0, _ => []
  | _ + 1, none => []
  | n + 1, some a => a :: walk keys n (next keys a)

/-- All keys in turn, from one on. -/
def startingAt (keys : List α) (a : α) : List α := keys.filter (fun b => a ≤ b) ++ keys.filter (fun b => b < a)

theorem startingAt_append (hsorted : (pre ++ a :: post).Pairwise (· < ·)) :
    startingAt (pre ++ a :: post) a = a :: post ++ pre := by
  obtain ⟨-, hpost, hbefore⟩ := List.pairwise_append.mp hsorted
  have hlt : ∀ b ∈ pre, b < a := fun b hb => hbefore b hb a List.mem_cons_self
  have hgt : ∀ b ∈ post, a < b := (List.pairwise_cons.mp hpost).1
  have hpre₁ : pre.filter (fun b => a ≤ b) = [] :=
    List.filter_eq_nil_iff.mpr (fun b hb => by simpa using hlt b hb)
  have hpre₂ : pre.filter (fun b => b < a) = pre := List.filter_eq_self.mpr (fun b hb => by simpa using hlt b hb)
  have hpost₁ : post.filter (fun b => a ≤ b) = post :=
    List.filter_eq_self.mpr (fun b hb => by simpa using (hgt b hb).le)
  have hpost₂ : post.filter (fun b => b < a) = [] :=
    List.filter_eq_nil_iff.mpr (fun b hb => by simpa using (hgt b hb).le)
  simp [startingAt, hpre₁, hpre₂, hpost₁, hpost₂]

theorem higherKey_append (hsorted : (pre ++ a :: post).Pairwise (· < ·)) :
    higherKey (pre ++ a :: post) a = post.head? := by
  obtain ⟨-, hpost, hbefore⟩ := List.pairwise_append.mp hsorted
  have hpre : pre.find? (fun b => a < b) = none := by
    rw [List.find?_eq_none]
    intro b hb
    simpa using (hbefore b hb a List.mem_cons_self).le
  rw [higherKey, List.find?_append, hpre, Option.none_or, List.find?_cons_of_neg (by simp)]
  cases post with
  | nil => rfl
  | cons b rest =>
    have hb : a < b := (List.pairwise_cons.mp hpost).1 b List.mem_cons_self
    rw [List.find?_cons_of_pos (by simpa using hb), List.head?_cons]

/-- Whoever is reached, the others follow in turn. -/
theorem startingAt_of_eq (hsorted : keys.Pairwise (· < ·)) (ha : a ∈ keys) (h : startingAt keys a = pre ++ b :: post) :
    startingAt keys b = b :: post ++ pre := by
  obtain ⟨l, r, rfl⟩ := List.append_of_mem ha
  rw [startingAt_append hsorted] at h
  -- the key is one of those below `a`, or one of those from `a` on
  rcases List.append_eq_append_iff.mp h with ⟨mid, rfl, rfl⟩ | ⟨mid, hr, htail⟩
  · rw [List.append_assoc, List.cons_append] at hsorted ⊢
    rw [startingAt_append hsorted]
    simp
  · cases mid with
    | nil =>
      rw [List.append_nil] at hr
      rw [List.nil_append] at htail
      have hstart := @startingAt_append α _ [] (post ++ a :: r) b
      rw [List.nil_append, ← List.cons_append, htail] at hstart
      rw [hstart hsorted, htail, ← hr]
      simp
    | cons c mid =>
      obtain ⟨rfl, rfl⟩ := List.cons.inj htail
      rw [hr, ← List.append_assoc] at hsorted ⊢
      rw [startingAt_append hsorted]
      simp

theorem next_append (hsorted : (pre ++ a :: post).Pairwise (· < ·)) : ∃ b, next (pre ++ a :: post) a = some b ∧
    b ∈ pre ++ a :: post ∧ startingAt (pre ++ a :: post) b = post ++ pre ++ [a] := by
  rw [next, higherKey_append hsorted]
  cases post with
  | cons b rest =>
    refine ⟨b, rfl, by simp, ?_⟩
    have hstart := @startingAt_append α _ (pre ++ [a]) rest b
    rw [List.append_assoc, List.singleton_append] at hstart
    simp [hstart hsorted]
  | nil =>
    -- it is the last one
    cases pre with
    | nil => exact ⟨a, rfl, by simp, startingAt_append hsorted⟩
    | cons b rest => exact ⟨b, rfl, by simp, by simpa using @startingAt_append α _ [] (rest ++ [a]) b hsorted⟩

theorem mem_startingAt (a b : α) : b ∈ startingAt keys a ↔ b ∈ keys := by
  simp only [startingAt, List.mem_append, List.mem_filter, decide_eq_true_eq]
  have := le_or_gt a b
  tauto

/-- The next key, and then the others in turn. -/
theorem startingAt_next (hsorted : keys.Pairwise (· < ·)) (ha : a ∈ keys) (h : startingAt keys a = pre ++ b :: post) :
    ∃ c, next keys b = some c ∧ c ∈ keys ∧ startingAt keys c = post ++ pre ++ [b] := by
  have hb := startingAt_of_eq hsorted ha h
  have hmem : b ∈ keys := by
    rw [← mem_startingAt a b, h]
    simp
  obtain ⟨l, r, rfl⟩ := List.append_of_mem hmem
  rw [startingAt_append hsorted, List.cons_append, List.cons_append, List.cons.injEq] at hb
  rw [← hb.2]
  exact next_append hsorted

/-- The walk visits the keys in turn. -/
theorem walk_eq_take (hsorted : keys.Pairwise (· < ·)) (ha : a ∈ keys) (n : Nat) (hn : n ≤ keys.length) :
    walk keys n (some a) = (startingAt keys a).take n := by
  induction n generalizing a with
  | zero => simp [walk]
  | succ n ih =>
    obtain ⟨l, r, rfl⟩ := List.append_of_mem ha
    obtain ⟨c, hnext, hc, hstart⟩ := next_append hsorted
    rw [walk, hnext, ih hc (by omega), hstart, startingAt_append hsorted, List.cons_append, List.take_succ_cons]
    have hlength : n ≤ (r ++ l).length := by
      simp only [List.length_append, List.length_cons] at hn ⊢
      omega
    rw [List.take_append_of_le_length hlength]

theorem length_startingAt (hsorted : keys.Pairwise (· < ·)) (ha : a ∈ keys) :
    (startingAt keys a).length = keys.length := by
  obtain ⟨l, r, rfl⟩ := List.append_of_mem ha
  rw [startingAt_append hsorted]
  simp only [List.length_append, List.length_cons]
  omega

/-- Each key is visited once. -/
theorem walk_all (hsorted : keys.Pairwise (· < ·)) (ha : a ∈ keys) :
    walk keys keys.length (some a) = startingAt keys a := by
  rw [walk_eq_take hsorted ha keys.length le_rfl, ← length_startingAt hsorted ha, List.take_length]

theorem nodup_startingAt (hsorted : keys.Pairwise (· < ·)) (ha : a ∈ keys) : (startingAt keys a).Nodup := by
  have hnodup : keys.Nodup := hsorted.imp (fun h => h.ne)
  obtain ⟨l, r, rfl⟩ := List.append_of_mem ha
  rw [startingAt_append hsorted]
  exact List.nodup_append_comm.mp hnodup

theorem takeWhile_append_of_mem (hb : b ∈ pre) :
    (pre ++ post).takeWhile (fun c => c ≠ b) = pre.takeWhile (fun c => c ≠ b) := by
  induction pre with
  | nil => cases hb
  | cons c rest ih =>
    by_cases hc : c = b
    · simp [hc]
    · have hrest : b ∈ rest := (List.mem_cons.mp hb).resolve_left (fun h => hc h.symm)
      simpa [hc] using ih hrest

/-- The keys that come before one of them. -/
def before (keys : List α) (a b : α) : List α := (startingAt keys a).takeWhile (fun c => c ≠ b)

/-- Whoever comes before a key and is passed over leaves fewer that do. -/
theorem before_next (hsorted : keys.Pairwise (· < ·)) (ha : a ∈ keys) (hb : b ∈ keys) {c : α}
    (h : startingAt keys a = pre ++ c :: post) (hbefore : b ∉ pre) (hc : c ≠ b) :
    ∃ d, next keys c = some d ∧ d ∈ keys ∧ (c :: before keys d b).Sublist (before keys a b) := by
  obtain ⟨d, hnext, hd, hstart⟩ := startingAt_next hsorted ha h
  refine ⟨d, hnext, hd, ?_⟩
  have hpost : b ∈ post := by
    have hin : b ∈ startingAt keys a := (mem_startingAt a b).mpr hb
    rw [h, List.mem_append, List.mem_cons] at hin
    tauto
  have hpre : ∀ e ∈ pre, e ≠ b := fun e he heq => hbefore (heq ▸ he)
  rw [before, before, h, hstart, List.append_assoc, takeWhile_append_of_mem hpost,
    List.takeWhile_append_of_pos (by simpa using hpre), List.takeWhile_cons_of_pos (by simpa using hc)]
  exact List.sublist_append_right pre _

theorem nodup_before (hsorted : keys.Pairwise (· < ·)) (ha : a ∈ keys) : (before keys a b).Nodup :=
  (nodup_startingAt hsorted ha).sublist (List.takeWhile_sublist _)

theorem not_mem_before (a b : α) : b ∉ before keys a b := by
  intro h
  simpa using List.mem_takeWhile_imp h

/-- One key is missing, the one that is waited for. -/
theorem length_before (hsorted : keys.Pairwise (· < ·)) (ha : a ∈ keys) (hb : b ∈ keys) :
    (before keys a b).length < keys.length := by
  have hcons : (b :: before keys a b).Nodup := List.nodup_cons.mpr ⟨not_mem_before a b, nodup_before hsorted ha⟩
  have hsubset : b :: before keys a b ⊆ keys := by
    intro c hc
    rcases List.mem_cons.mp hc with rfl | hc
    · exact hb
    · exact (mem_startingAt a c).mp ((List.takeWhile_sublist _).subset hc)
  have hle := (hcons.subperm hsubset).length_le
  simpa using hle

end CyclicOrder
