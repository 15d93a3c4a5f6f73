import Mathlib.Data.List.Perm.Basic
import Symbolic.Pattern.Blocks

/-!
What is shared out: every ordered partition gives each number to one of its places, and no place goes
without (`shares_of_mem_ordered`). Partitions grow number by number, so that holds after every
number (`Shares`).
-/

namespace Symbolic.Blocks

/-- The numbers below `n` are shared out among the blocks: none of these is empty, and their
numbers ascend. -/
structure Shares (n : Nat) (blocks : List (List Nat)) : Prop where
  perm : blocks.flatten.Perm (List.range n)
  ascending : ∀ b ∈ blocks, b ≠ [] ∧ b.Pairwise (· < ·)

variable {n k : Nat} {blocks : List (List Nat)}

theorem Shares.lt (h : Shares n blocks) {b : List Nat} (hb : b ∈ blocks) : ∀ i ∈ b, i < n :=
  fun _ hi => List.mem_range.1 (h.perm.mem_iff.1 (List.mem_flatten_of_mem hb hi))

theorem addAt_append (i : Nat) (us : List (List Nat)) (b : List Nat) (vs : List (List Nat)) :
    addAt i us.length (us ++ b :: vs) = us ++ (b ++ [i]) :: vs := by
  induction us with
  | nil => rfl
  | cons u us ih => exact congrArg (u :: ·) ih

theorem Shares.addAt (h : Shares n blocks) {j : Nat} (hj : j < blocks.length) :
    Shares (n + 1) (addAt n j blocks) := by
  obtain ⟨us, b, vs, rfl, rfl⟩ : ∃ us b vs, blocks = us ++ b :: vs ∧ us.length = j :=
    ⟨blocks.take j, blocks[j], blocks.drop (j + 1), by simp, by simp; omega⟩
  rw [addAt_append]
  have hb := h.ascending b (by simp)
  have hlt := h.lt (b := b) (by simp)
  refine ⟨?_, fun c hc => ?_⟩
  · have hp : (us ++ (b ++ [n]) :: vs).flatten.Perm (n :: (us ++ b :: vs).flatten) := by
      simp only [List.flatten_append, List.flatten_cons, List.append_assoc, List.singleton_append]
      exact ((List.perm_middle (a := n)).append_left us.flatten).trans List.perm_middle
    rw [List.range_succ]
    exact (hp.trans (h.perm.cons n)).trans (List.perm_append_singleton n _).symm
  · rcases List.mem_append.1 hc with hc | hc
    · exact h.ascending c (List.mem_append_left _ hc)
    rcases List.mem_cons.1 hc with rfl | hc
    · refine ⟨by simp, List.pairwise_append.2 ⟨hb.2, List.pairwise_singleton _ _, ?_⟩⟩
      intro i hi j hj
      rw [List.mem_singleton.1 hj]
      exact hlt i hi
    · exact h.ascending c (List.mem_append_right _ (List.mem_cons_of_mem _ hc))

theorem Shares.open (h : Shares n blocks) : Shares (n + 1) (blocks ++ [[n]]) := by
  refine ⟨?_, fun c hc => ?_⟩
  · rw [List.flatten_append, List.flatten_singleton, List.range_succ]
    exact h.perm.append_right [n]
  · rcases List.mem_append.1 hc with hc | hc
    · exact h.ascending c hc
    · rw [List.mem_singleton.1 hc]
      exact ⟨List.cons_ne_nil _ _, List.pairwise_singleton _ _⟩

theorem mem_extend_zero {bs : List (List Nat)} :
    bs ∈ extend k 0 n blocks ↔ blocks.length = k ∧ bs = blocks := by
  rw [extend]
  split
  · next hk => simp [hk]
  · next hk => simp [hk]

/-- The next number joins a block or opens one. -/
theorem mem_extend_cases {m : Nat} {bs : List (List Nat)} (h : bs ∈ extend k (m + 1) n blocks) :
    (∃ j < blocks.length, bs ∈ extend k m (n + 1) (addAt n j blocks)) ∨
      bs ∈ extend k m (n + 1) (blocks ++ [[n]]) := by
  rw [extend] at h
  split at h
  · cases h
  rcases List.mem_append.1 h with h | h
  · obtain ⟨j, hj, h⟩ := List.mem_flatMap.1 h
    exact .inl ⟨j, List.mem_range.1 hj, h⟩
  · split at h
    · exact .inr h
    · cases h

theorem shares_of_mem_extend {m : Nat} (h : Shares n blocks) :
    ∀ bs ∈ extend k m n blocks, bs.length = k ∧ Shares (n + m) bs := by
  induction m generalizing n blocks with
  | zero =>
    intro bs hbs
    obtain ⟨hk, rfl⟩ := mem_extend_zero.1 hbs
    exact ⟨hk, h⟩
  | succ m ih =>
    intro bs hbs
    rw [← Nat.add_assoc, Nat.add_right_comm]
    rcases mem_extend_cases hbs with ⟨j, hj, hbs⟩ | hbs
    · exact ih (h.addAt hj) bs hbs
    · exact ih h.open bs hbs

theorem shares_of_mem_partitions :
    ∀ bs ∈ partitions n k, bs.length = k ∧ Shares n bs := by
  intro bs hbs
  rw [partitions] at hbs
  split at hbs
  · cases hbs
  · have hnil : Shares 0 [] := ⟨.refl _, List.forall_mem_nil _⟩
    have h := shares_of_mem_extend hnil bs hbs
    rwa [Nat.zero_add] at h

theorem swap_perm {α : Type} (i j : Nat) (xs : List α) : (swap i j xs).Perm xs := by
  unfold swap
  split
  · next x y hx hy =>
    obtain ⟨hi, rfl⟩ := List.getElem?_eq_some_iff.1 hx
    obtain ⟨hj, rfl⟩ := List.getElem?_eq_some_iff.1 hy
    exact List.set_set_perm hi hj
  · exact .refl _

theorem arrange_perm {α : Type} (m : Nat) (xs : List α) :
    (∀ ys ∈ (arrange m xs).1, ys.Perm xs) ∧ (arrange m xs).2.Perm xs := by
  induction m generalizing xs with
  | zero => exact ⟨fun ys hys => by rw [List.mem_singleton.1 hys], .refl _⟩
  | succ m ih =>
    rw [arrange]
    -- the rounds so far have led to rearrangements
    generalize List.range m = cs
    have hstart : (∀ ys ∈ (arrange m xs).1, ys.Perm xs) ∧ (arrange m xs).2.Perm xs := ih xs
    generalize arrange m xs = s at hstart ⊢
    induction cs generalizing s with
    | nil => exact hstart
    | cons c cs ihc =>
      rw [List.foldl_cons]
      refine ihc _ ?_
      obtain ⟨hall, hlast⟩ := ih (swap (if m % 2 = 0 then 0 else c) m s.2)
      have hs := (swap_perm (if m % 2 = 0 then 0 else c) m s.2).trans hstart.2
      refine ⟨fun ys hys => ?_, hlast.trans hs⟩
      rcases List.mem_append.1 hys with hys | hys
      · exact hstart.1 ys hys
      · exact (hall ys hys).trans hs

theorem perm_of_mem_permutations : ∀ order ∈ permutations k, order.Perm (List.range k) :=
  (arrange_perm k (List.range k)).1

theorem map_getD_range {α : Type} (xs : List α) (d : α) :
    (List.range xs.length).map (fun i => xs.getD i d) = xs := by
  refine List.ext_getElem (by simp) fun i _ hi => ?_
  simp [hi]

theorem shares_of_mem_ordered : ∀ gs ∈ ordered n k, gs.length = k ∧ Shares n gs := by
  intro gs hgs
  obtain ⟨bs, hbs, hgs⟩ := List.mem_flatMap.1 hgs
  obtain ⟨order, horder, rfl⟩ := List.mem_map.1 hgs
  obtain ⟨hk, hshares⟩ := shares_of_mem_partitions bs hbs
  have hp := perm_of_mem_permutations order horder
  -- the blocks in another order
  have hblocks : (order.map fun b => bs.getD b []).Perm bs := by
    have := hp.map fun b => bs.getD b []
    rwa [← hk, map_getD_range] at this
  refine ⟨by rw [List.length_map, hp.length_eq, List.length_range],
    hblocks.flatten.trans hshares.perm, fun b hb => hshares.ascending b (hblocks.mem_iff.1 hb)⟩

end Symbolic.Blocks
