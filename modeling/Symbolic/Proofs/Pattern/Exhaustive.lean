import Symbolic.Proofs.Expr.Rearranged
import Symbolic.Proofs.Pattern.Arrange

/-!
No way of sharing out is left out: blocks among which the numbers are shared out are one of the
ordered partitions (`mem_ordered`). Any such blocks can be grown number by number, as the partitions
are (`Grown`), if they are put in the order in which they are opened.
-/

namespace Symbolic.Blocks

variable {n k m : Nat} {bs gs : List (List Nat)}

/-- Blocks that are grown number by number: each number joins a block or opens the next. -/
inductive Grown : Nat → List (List Nat) → Prop where
  | nil : Grown 0 []
  | join {n j : Nat} {bs : List (List Nat)} : Grown n bs → j < bs.length →
      Grown (n + 1) (addAt n j bs)
  | opened {n : Nat} {bs : List (List Nat)} : Grown n bs → Grown (n + 1) (bs ++ [[n]])

theorem length_addAt (i j : Nat) (bs : List (List Nat)) : (addAt i j bs).length = bs.length := by
  induction bs generalizing j with
  | nil => rw [addAt]
  | cons b bs ih =>
    cases j with
    | zero => rfl
    | succ j => exact congrArg (· + 1) (ih j)

/-- There are neither too many blocks to begin with nor too few numbers to open the others. -/
theorem bounds_of_mem_extend (h : gs ∈ extend k m n bs) :
    bs.length ≤ k ∧ k ≤ bs.length + m := by
  induction m generalizing n bs with
  | zero =>
    obtain ⟨hk, -⟩ := mem_extend_zero.1 h
    omega
  | succ m ih =>
    rcases mem_extend_cases h with ⟨j, -, h⟩ | h
    · have := ih h
      rw [length_addAt] at this
      omega
    · have := ih h
      rw [List.length_append, List.length_singleton] at this
      omega

theorem mem_extend_of_join {j : Nat} (hj : j < bs.length)
    (h : gs ∈ extend k m (n + 1) (addAt n j bs)) : gs ∈ extend k (m + 1) n bs := by
  have hb := bounds_of_mem_extend h
  rw [length_addAt] at hb
  rw [extend, if_neg (by omega)]
  exact List.mem_append_left _ (List.mem_flatMap.2 ⟨j, List.mem_range.2 hj, h⟩)

theorem mem_extend_of_opened (h : gs ∈ extend k m (n + 1) (bs ++ [[n]])) :
    gs ∈ extend k (m + 1) n bs := by
  have hb := bounds_of_mem_extend h
  rw [List.length_append, List.length_singleton] at hb
  rw [extend, if_neg (by omega), if_pos (by omega : bs.length < k)]
  exact List.mem_append_right _ h

/-- What grown blocks are continued to is continued from nothing. -/
theorem Grown.mem_extend (h : Grown n bs) (hg : gs ∈ extend k m n bs) :
    gs ∈ extend k (n + m) 0 [] := by
  induction h generalizing m with
  | nil => rwa [Nat.zero_add]
  | @join n j bs _ hj ih =>
    rw [Nat.add_right_comm]
    exact ih (mem_extend_of_join hj hg)
  | @opened n bs _ ih =>
    rw [Nat.add_right_comm]
    exact ih (mem_extend_of_opened hg)

theorem Grown.mem_partitions (h : Grown n bs) (hl : bs.length = k) (hk : 0 < k) :
    bs ∈ partitions n k := by
  have hmem := h.mem_extend (mem_extend_zero.2 ⟨hl, rfl⟩)
  have hb := bounds_of_mem_extend hmem
  rw [List.length_nil] at hb
  have hn : ¬(k = 0 || n < k) = true := by
    rw [Bool.or_eq_true, decide_eq_true_eq, decide_eq_true_eq]
    omega
  rw [partitions, if_neg hn]
  exact hmem

theorem Shares.eq_nil (h : Shares 0 gs) : gs = [] := by
  refine List.eq_nil_iff_forall_not_mem.2 fun g hg => ?_
  obtain ⟨i, hi⟩ := List.exists_mem_of_ne_nil g (h.ascending g hg).1
  exact Nat.not_lt_zero i (h.lt hg i hi)

/-- The last number stands at the end of its block. What is left without it is shared out too. -/
theorem Shares.exists_last (h : Shares (n + 1) gs) :
    ∃ us b vs, gs = us ++ (b ++ [n]) :: vs ∧ Shares n (if b = [] then us ++ vs else us ++ b :: vs) := by
  obtain ⟨c, hc, hn⟩ := List.mem_flatten.1
    (h.perm.mem_iff.2 (List.mem_range.2 (Nat.lt_succ_self n)))
  obtain ⟨us, vs, rfl⟩ := List.append_of_mem hc
  obtain ⟨b, qs, rfl⟩ := List.append_of_mem hn
  have hasc := (h.ascending _ hc).2
  have hlt := h.lt hc
  obtain rfl : qs = [] := by
    refine List.eq_nil_iff_forall_not_mem.2 fun q hq => ?_
    have h1 := (List.pairwise_cons.1 (List.pairwise_append.1 hasc).2.1).1 q hq
    have h2 := hlt q (by simp [hq])
    omega
  have hrest : ∀ d ∈ us ++ vs, d ≠ [] ∧ d.Pairwise (· < ·) := by
    intro d hd
    refine h.ascending d (List.mem_append.2 ?_)
    exact (List.mem_append.1 hd).imp_right fun hd => List.mem_cons_of_mem _ hd
  have hperm : (us ++ b :: vs).flatten.Perm (List.range n) := by
    have hp : (us ++ (b ++ [n]) :: vs).flatten.Perm (n :: (us ++ b :: vs).flatten) := by
      simp only [List.flatten_append, List.flatten_cons, List.append_assoc, List.singleton_append]
      exact ((List.perm_middle (a := n)).append_left us.flatten).trans List.perm_middle
    have hrange := h.perm
    rw [List.range_succ] at hrange
    exact ((hp.symm.trans hrange).trans (List.perm_append_singleton n _)).cons_inv
  refine ⟨us, b, vs, rfl, ?_⟩
  split
  · next hb =>
    rw [hb, List.flatten_append, List.flatten_cons, List.nil_append, ← List.flatten_append] at hperm
    exact ⟨hperm, hrest⟩
  · next hb =>
    refine ⟨hperm, fun d hd => ?_⟩
    rcases List.mem_cons.1 (List.perm_middle.mem_iff.1 hd) with rfl | hd
    · exact ⟨hb, (List.pairwise_append.1 hasc).1⟩
    · exact hrest d hd

/-- Whatever shares out the numbers can be grown, in some order of the blocks. -/
theorem Shares.exists_grown (h : Shares n gs) : ∃ bs, Grown n bs ∧ bs.Perm gs := by
  induction n generalizing gs with
  | zero =>
    rw [h.eq_nil]
    exact ⟨[], .nil, .refl _⟩
  | succ n ih =>
    obtain ⟨us, b, vs, rfl, hrest⟩ := h.exists_last
    obtain ⟨bs, hbs, hp⟩ := ih hrest
    split at hp
    · next hb =>
      subst hb
      refine ⟨bs ++ [[n]], .opened hbs, ?_⟩
      exact (List.perm_append_singleton _ bs).trans ((hp.cons _).trans List.perm_middle.symm)
    · -- the block that takes the last number stands somewhere in the other order
      obtain ⟨us', vs', rfl⟩ := List.append_of_mem (hp.mem_iff.2 (by simp : b ∈ us ++ b :: vs))
      have hrest : (us' ++ vs').Perm (us ++ vs) :=
        (List.perm_middle.symm.trans (hp.trans List.perm_middle)).cons_inv
      have hj : us'.length < (us' ++ b :: vs').length := by simp
      refine ⟨_, .join hbs hj, ?_⟩
      rw [addAt_append]
      exact List.perm_middle.trans ((hrest.cons _).trans List.perm_middle.symm)

theorem exists_order {α : Type} {xs ys : List α} (h : xs.Perm ys) (d : α) :
    ∃ order : List Nat, order.Perm (List.range ys.length) ∧
      xs = order.map fun i => ys.getD i d := by
  have hys : List.Forall₂ (fun y i => y = ys.getD i d) ys (List.range ys.length) := by
    rw [← List.forall₂_map_right_iff (R := fun y z => y = z) (f := fun i => ys.getD i d),
      map_getD_range, List.forall₂_eq_eq_eq]
  obtain ⟨order, horder, hp⟩ := List.perm_comp_forall₂ h hys
  refine ⟨order, hp, ?_⟩
  rwa [← List.forall₂_eq_eq_eq, List.forall₂_map_right_iff]

/-- Whatever shares out the numbers among `k` places is one of the ordered partitions. -/
theorem mem_ordered (h : Shares n gs) (hl : gs.length = k) (hk : 0 < k) : gs ∈ ordered n k := by
  obtain ⟨bs, hbs, hp⟩ := h.exists_grown
  obtain ⟨order, horder, hgs⟩ := exists_order hp.symm []
  have hlen : bs.length = k := hp.length_eq.trans hl
  rw [hlen] at horder
  exact List.mem_flatMap.2 ⟨bs, hbs.mem_partitions hlen hk,
    List.mem_map.2 ⟨order, mem_permutations horder, hgs.symm⟩⟩

end Symbolic.Blocks
