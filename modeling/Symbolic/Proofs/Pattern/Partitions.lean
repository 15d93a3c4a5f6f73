import Mathlib.Data.Finset.Sort
import Mathlib.Data.Nat.PSub
import Mathlib.Data.Set.Function
import Mathlib.Order.Partition.Finpartition
import Symbolic.Proofs.Pattern.Exhaustive

/-!
Partitions are listed once each. A partition is written down in one way (`IsPartition`), and the blocks
that are written down so are those that can be grown number by number (`Grown.isPartition`,
`IsPartition.grown`). The search goes from a partition of the first numbers to just those in which it
shows when the later numbers are left out (`mem_extend_iff`), so different choices never lead to the
same partition (`Grown.nodup_extend`), and a partition is given up only if none goes on from it
(`lt_missing_iff`).
-/

namespace Symbolic.Blocks

variable {n k m i j : Nat} {bs gs : List (List Nat)}

/-- A partition of the numbers below `n`, in the one way in which it is written down: numbers ascend in
a block, and blocks stand in the order of their least numbers. -/
structure IsPartition (n : Nat) (bs : List (List Nat)) : Prop extends Shares n bs where
  ordered : (bs.map (·.headD 0)).Pairwise (· < ·)

theorem headD_mem {b : List Nat} (h : b ≠ []) : b.headD 0 ∈ b := by
  obtain ⟨x, b, rfl⟩ := List.exists_cons_of_ne_nil h
  exact List.mem_cons_self

theorem headD_concat {b : List Nat} (h : b ≠ []) (x : Nat) : (b ++ [x]).headD 0 = b.headD 0 := by
  obtain ⟨y, b, rfl⟩ := List.exists_cons_of_ne_nil h
  rfl

theorem map_headD_addAt (h : ∀ b ∈ bs, b ≠ []) (j : Nat) :
    (addAt i j bs).map (·.headD 0) = bs.map (·.headD 0) := by
  induction bs generalizing j with
  | nil => rw [addAt]
  | cons b bs ih =>
    obtain ⟨hb, h⟩ := List.forall_mem_cons.1 h
    cases j with
    | zero => exact congrArg (· :: _) (headD_concat hb i)
    | succ j => exact congrArg (_ :: ·) (ih h j)

theorem Grown.isPartition (h : Grown n bs) : IsPartition n bs := by
  induction h with
  | nil => exact ⟨⟨.refl _, List.forall_mem_nil _⟩, .nil⟩
  | join _ hj ih =>
    refine ⟨ih.toShares.addAt hj, ?_⟩
    rw [map_headD_addAt fun b hb => (ih.ascending b hb).1]
    exact ih.ordered
  | @opened n bs _ ih =>
    refine ⟨ih.toShares.open, ?_⟩
    rw [List.map_append]
    refine List.pairwise_append.2 ⟨ih.ordered, List.pairwise_singleton _ _, ?_⟩
    rintro x hx y hy
    obtain ⟨b, hb, rfl⟩ := List.mem_map.1 hx
    rw [List.mem_singleton.1 hy]
    exact ih.lt hb _ (headD_mem (ih.ascending b hb).1)

theorem IsPartition.grown (h : IsPartition n gs) : Grown n gs := by
  induction n generalizing gs with
  | zero =>
    rw [h.eq_nil]
    exact .nil
  | succ n ih =>
    obtain ⟨us, b, vs, rfl, hrest⟩ := h.exists_last
    have hordered := h.ordered
    split at hrest
    · next hb =>
      -- a block behind would have to start with a greater number
      obtain rfl : vs = [] := by
        refine List.eq_nil_iff_forall_not_mem.2 fun v hv => ?_
        rw [hb, List.map_append, List.map_cons] at hordered
        have hlt := (List.pairwise_cons.1 (List.pairwise_append.1 hordered).2.1).1 _
          (List.mem_map_of_mem hv)
        have hmem : v ∈ us ++ (b ++ [n]) :: vs := by simp [hv]
        have hle := h.lt hmem _ (headD_mem (h.ascending v hmem).1)
        exact absurd hlt (Nat.not_lt.2 (Nat.le_of_lt_succ hle))
      rw [hb, List.nil_append]
      rw [List.append_nil] at hrest
      refine .opened (ih ⟨hrest, ?_⟩)
      rw [List.map_append] at hordered
      exact (List.pairwise_append.1 hordered).1
    · next hb =>
      rw [← addAt_append]
      refine .join (ih ⟨hrest, ?_⟩) (by simp)
      rw [List.map_append, List.map_cons, headD_concat hb] at hordered
      rwa [List.map_append, List.map_cons]

/-- What there is of blocks as long as only the numbers below `i` are there. -/
def upTo (i : Nat) (bs : List (List Nat)) : List (List Nat) :=
  (bs.map (·.filter (· < i))).filter (· ≠ [])

theorem upTo_cons (i : Nat) (b : List Nat) (bs : List (List Nat)) :
    upTo i (b :: bs) = upTo i [b] ++ upTo i bs := by
  rw [upTo, List.map_cons, List.filter_cons]
  split <;> simp_all [upTo]

theorem upTo_addAt (h : i ≤ n) (j : Nat) (bs : List (List Nat)) :
    upTo i (addAt n j bs) = upTo i bs := by
  induction bs generalizing j with
  | nil => rw [addAt]
  | cons b bs ih =>
    cases j with
    | zero =>
      have hn : ¬ n < i := Nat.not_lt.2 h
      simp [addAt, upTo, hn]
    | succ j => rw [addAt, upTo_cons, ih, ← upTo_cons]

theorem upTo_opened (h : i ≤ n) (bs : List (List Nat)) : upTo i (bs ++ [[n]]) = upTo i bs := by
  have hn : ¬ n < i := Nat.not_lt.2 h
  simp [upTo, hn]

theorem Shares.upTo_eq (h : Shares n bs) : upTo n bs = bs := by
  have hfilter (b : List Nat) (hb : b ∈ bs) : b.filter (· < n) = b :=
    List.filter_eq_self.2 fun x hx => decide_eq_true (h.lt hb x hx)
  rw [upTo, List.map_congr_left hfilter, List.map_id']
  exact List.filter_eq_self.2 fun b hb => decide_eq_true (h.ascending b hb).1

/-! What is listed. -/

theorem upTo_of_mem_extend (hi : i ≤ n) (h : gs ∈ extend k m n bs) : upTo i gs = upTo i bs := by
  induction m generalizing n bs with
  | zero => rw [(mem_extend_zero.1 h).2]
  | succ m ih =>
    rcases mem_extend_cases h with ⟨j, -, h⟩ | h
    · rw [ih (by omega) h, upTo_addAt hi]
    · rw [ih (by omega) h, upTo_opened hi]

/-- The blocks that are continued show in what they are continued to. -/
theorem Grown.upTo_eq (h : Grown n bs) (hg : gs ∈ extend k m n bs) : upTo n gs = bs := by
  rw [upTo_of_mem_extend (Nat.le_refl n) hg, h.isPartition.upTo_eq]

theorem Grown.of_mem_extend (h : Grown n bs) (hg : gs ∈ extend k m n bs) : Grown (n + m) gs := by
  induction m generalizing n bs with
  | zero => rwa [(mem_extend_zero.1 hg).2]
  | succ m ih =>
    rw [← Nat.add_assoc, Nat.add_right_comm]
    rcases mem_extend_cases hg with ⟨j, hj, hg⟩ | hg
    · exact ih (h.join hj) hg
    · exact ih h.opened hg

/-- What grown blocks are continued to is continued from what there was of them earlier. -/
theorem Grown.mem_extend_upTo (h : Grown n bs) (hi : i ≤ n) (hg : gs ∈ extend k m n bs) :
    gs ∈ extend k (n - i + m) i (upTo i bs) := by
  induction h generalizing m with
  | nil =>
    obtain rfl := Nat.le_zero.1 hi
    rwa [Nat.sub_self, Nat.zero_add]
  | @join n j bs h hj ih =>
    rcases Nat.le_or_eq_of_le_succ hi with hi | rfl
    · rw [upTo_addAt hi, Nat.succ_sub hi, Nat.succ_add_eq_add_succ]
      exact ih hi (mem_extend_of_join hj hg)
    · rwa [(h.join hj).isPartition.upTo_eq, Nat.sub_self, Nat.zero_add]
  | @opened n bs h ih =>
    rcases Nat.le_or_eq_of_le_succ hi with hi | rfl
    · rw [upTo_opened hi, Nat.succ_sub hi, Nat.succ_add_eq_add_succ]
      exact ih hi (mem_extend_of_opened hg)
    · rwa [h.opened.isPartition.upTo_eq, Nat.sub_self, Nat.zero_add]

/-- A partition is continued to those partitions of more numbers in which it shows. -/
theorem mem_extend_iff (h : IsPartition n bs) :
    gs ∈ extend k m n bs ↔ IsPartition (n + m) gs ∧ gs.length = k ∧ upTo n gs = bs := by
  constructor
  · intro hg
    exact ⟨(h.grown.of_mem_extend hg).isPartition, (shares_of_mem_extend h.toShares gs hg).1,
      h.grown.upTo_eq hg⟩
  · rintro ⟨hg, hk, rfl⟩
    have hmem := hg.grown.mem_extend_upTo (Nat.le_add_right n m) (mem_extend_zero.2 ⟨hk, rfl⟩)
    rwa [Nat.add_sub_cancel_left] at hmem

theorem addAt_inj (hi : i < bs.length) (h : addAt n i bs = addAt n j bs) : i = j := by
  induction bs generalizing i j with
  | nil => cases hi
  | cons b bs ih =>
    cases i with
    | zero =>
      cases j with
      | zero => rfl
      | succ j => simp [addAt] at h
    | succ i =>
      cases j with
      | zero => simp [addAt] at h
      | succ j => exact congrArg (· + 1) (ih (Nat.lt_of_succ_lt_succ hi) (List.cons.inj h).2)

/-- Nothing is listed twice: what comes of different choices shows different blocks. -/
theorem Grown.nodup_extend (h : Grown n bs) : (extend k m n bs).Nodup := by
  induction m generalizing n bs with
  | zero =>
    rw [extend]
    split
    · exact List.nodup_singleton _
    · exact List.nodup_nil
  | succ m ih =>
    rw [extend]
    split
    · exact List.nodup_nil
    have hjoin {j : Nat} (hj : j ∈ List.range bs.length) : Grown (n + 1) (addAt n j bs) :=
      h.join (List.mem_range.1 hj)
    refine List.nodup_append'.2 ⟨List.nodup_flatMap.2 ⟨fun j hj => ih (hjoin hj), ?_⟩, ?_, ?_⟩
    · refine List.nodup_range.pairwise_of_forall_ne fun i hi j hj hne gs hgi hgj => hne ?_
      refine addAt_inj (n := n) (List.mem_range.1 hi) ?_
      rw [← (hjoin hi).upTo_eq hgi, (hjoin hj).upTo_eq hgj]
    · split
      · exact ih h.opened
      · exact List.nodup_nil
    · intro gs hg hg'
      obtain ⟨j, hj, hg⟩ := List.mem_flatMap.1 hg
      split at hg'
      · have heq := (h.opened.upTo_eq hg').symm.trans ((hjoin hj).upTo_eq hg)
        have hlen := congrArg List.length heq
        rw [length_addAt, List.length_append] at hlen
        exact absurd hlen (by simp)
      · cases hg'

/-- Blocks can be continued to `k` if they are not too many, and if no more are to be opened than there
are numbers: numbers that are too many join the first. -/
theorem exists_mem_extend (hb : bs.length ≤ k) (hm : k ≤ bs.length + m) (hk : 0 < k) :
    ∃ gs, gs ∈ extend k m n bs := by
  induction m generalizing n bs with
  | zero => exact ⟨bs, mem_extend_zero.2 ⟨Nat.le_antisymm hb hm, rfl⟩⟩
  | succ m ih =>
    by_cases hlt : bs.length < k
    · have hl : (bs ++ [[n]]).length = bs.length + 1 := List.length_append
      obtain ⟨gs, hg⟩ : ∃ gs, gs ∈ extend k m (n + 1) (bs ++ [[n]]) := ih (by omega) (by omega)
      exact ⟨gs, mem_extend_of_opened hg⟩
    · have hl := length_addAt n 0 bs
      obtain ⟨gs, hg⟩ : ∃ gs, gs ∈ extend k m (n + 1) (addAt n 0 bs) := ih (by omega) (by omega)
      exact ⟨gs, mem_extend_of_join (by omega) hg⟩

/-- The search gives up a partition if and only if no partition into `k` blocks goes on from it. -/
theorem lt_missing_iff (h : IsPartition n bs) (hb : bs.length ≤ k) (hk : 0 < k) :
    m < k - bs.length ↔ ¬ ∃ gs, IsPartition (n + m) gs ∧ gs.length = k ∧ upTo n gs = bs := by
  constructor
  · rintro hlt ⟨gs, hg⟩
    have hbounds := bounds_of_mem_extend ((mem_extend_iff h).2 hg)
    omega
  · intro hnone
    by_contra hge
    obtain ⟨gs, hg⟩ := exists_mem_extend (m := m) (n := n) hb (by omega) hk
    exact hnone ⟨gs, (mem_extend_iff h).1 hg⟩

/-- The search with differences that are there only if they are not below zero. -/
def extendChecked (n k : Nat) : Nat → Nat → List (List Nat) → Option (List (List (List Nat)))
  | 0, _, blocks => some (if blocks.length = k then [blocks] else [])
  | m + 1, i, blocks => do
    let missing ← Nat.psub k blocks.length
    let left ← Nat.psub n i
    if left < missing then return []
    else
      let joined ← (List.range blocks.length).mapM fun j =>
        extendChecked n k m (i + 1) (addAt i j blocks)
      let opened ← if blocks.length < k then extendChecked n k m (i + 1) (blocks ++ [[i]]) else some []
      return joined.flatten ++ opened

/-- No difference goes below zero. -/
theorem extendChecked_eq (hb : bs.length ≤ k) (hn : i + m = n) :
    extendChecked n k m i bs = some (extend k m i bs) := by
  induction m generalizing i bs with
  | zero => rfl
  | succ m ih =>
    obtain rfl := hn
    have hleft : i + (m + 1) - i = m + 1 := Nat.add_sub_cancel_left i (m + 1)
    have hjoin (j : Nat) : extendChecked (i + (m + 1)) k m (i + 1) (addAt i j bs) =
        pure (extend k m (i + 1) (addAt i j bs)) :=
      ih (by rwa [length_addAt]) (by omega)
    have hjoined : (List.range bs.length).mapM (fun j =>
        extendChecked (i + (m + 1)) k m (i + 1) (addAt i j bs)) =
        some ((List.range bs.length).map fun j => extend k m (i + 1) (addAt i j bs)) := by
      rw [funext hjoin]
      exact List.mapM_pure
    rw [extendChecked, extend, Nat.psub_eq_sub hb, Nat.psub_eq_sub (by omega), hleft, hjoined]
    simp only [Option.bind_eq_bind, Option.bind_some, Option.pure_def, List.flatMap_def]
    split
    · rfl
    split
    · rw [ih (by rw [List.length_append, List.length_singleton]; omega) (by omega)]
      rfl
    · rfl

theorem isPartition_nil : IsPartition 0 [] := Grown.nil.isPartition

theorem upTo_zero (bs : List (List Nat)) : upTo 0 bs = [] := by
  simp [upTo]

/-- With fewer numbers than blocks nothing would come of the search either. -/
theorem partitions_eq_extend (hk : 0 < k) : partitions n k = extend k n 0 [] := by
  rw [partitions]
  split
  · refine (List.eq_nil_iff_forall_not_mem.2 fun gs hg => ?_).symm
    have hb := bounds_of_mem_extend hg
    simp at *
    omega
  · rfl

theorem mem_partitions_iff (hk : 0 < k) :
    bs ∈ partitions n k ↔ IsPartition n bs ∧ bs.length = k := by
  rw [partitions_eq_extend hk, mem_extend_iff isPartition_nil, Nat.zero_add]
  simp [upTo_zero]

/-! Partitions as sets of sets. -/

def parts (bs : List (List Nat)) : Finset (Finset Nat) := (bs.map List.toFinset).toFinset

theorem mem_parts {p : Finset Nat} : p ∈ parts bs ↔ ∃ b ∈ bs, b.toFinset = p := by
  rw [parts, List.mem_toFinset, List.mem_map]

theorem Shares.disjoint (h : Shares n bs) : bs.Pairwise List.Disjoint :=
  (List.nodup_flatten.1 (h.perm.nodup_iff.2 List.nodup_range)).2

theorem Shares.eq_of_mem (h : Shares n bs) {b c : List Nat} (hb : b ∈ bs) (hc : c ∈ bs) {x : Nat}
    (hxb : x ∈ b) (hxc : x ∈ c) : b = c := by
  by_contra hne
  have hsymm : Std.Symm (@List.Disjoint Nat) := ⟨fun _ _ h => h.symm⟩
  exact h.disjoint.forall hb hc hne hxb hxc

theorem Shares.card_parts (h : Shares n bs) : (parts bs).card = bs.length := by
  have hnodup : (bs.map List.toFinset).Nodup := by
    refine List.pairwise_map.2 (h.disjoint.imp_of_mem fun {b c} hb _ hd he => ?_)
    obtain ⟨x, hx⟩ := List.exists_mem_of_ne_nil b (h.ascending b hb).1
    refine hd hx (List.mem_toFinset.1 ?_)
    rw [← he]
    exact List.mem_toFinset.2 hx
  rw [parts, List.toFinset_card_of_nodup hnodup, List.length_map]

/-- The set partition that blocks are. -/
def Shares.finpartition (h : Shares n bs) : Finpartition (Finset.range n) where
  parts := parts bs
  supIndep := by
    rw [Finset.supIndep_iff_pairwiseDisjoint]
    intro p hp q hq hne
    obtain ⟨b, hb, rfl⟩ := mem_parts.1 hp
    obtain ⟨c, hc, rfl⟩ := mem_parts.1 hq
    refine Finset.disjoint_left.2 fun x hx hx' => hne ?_
    rw [h.eq_of_mem hb hc (List.mem_toFinset.1 hx) (List.mem_toFinset.1 hx')]
  sup_parts := by
    ext x
    rw [Finset.sup_eq_biUnion, Finset.mem_biUnion, Finset.mem_range, ← List.mem_range,
      ← h.perm.mem_iff, List.mem_flatten]
    constructor
    · rintro ⟨p, hp, hx⟩
      obtain ⟨b, hb, rfl⟩ := mem_parts.1 hp
      exact ⟨b, hb, List.mem_toFinset.1 hx⟩
    · rintro ⟨b, hb, hx⟩
      exact ⟨_, mem_parts.2 ⟨b, hb, rfl⟩, List.mem_toFinset.2 hx⟩
  bot_notMem := by
    intro hbot
    obtain ⟨b, hb, hempty⟩ := mem_parts.1 hbot
    exact (h.ascending b hb).1 ((List.toFinset_eq_empty_iff b).1 hempty)

theorem sort_toFinset {b : List Nat} (h : b.Pairwise (· < ·)) : b.toFinset.sort (· ≤ ·) = b :=
  (List.toFinset_sort _ h.nodup).2 (h.imp Nat.le_of_lt)

theorem Shares.subset_of_parts_eq (hb : Shares n bs) (hg : Shares n gs) (h : parts bs = parts gs) :
    bs ⊆ gs := by
  intro b hmem
  have hpart : b.toFinset ∈ parts gs := h ▸ mem_parts.2 ⟨b, hmem, rfl⟩
  obtain ⟨c, hc, hcb⟩ := mem_parts.1 hpart
  rw [← sort_toFinset (hg.ascending c hc).2, hcb, sort_toFinset (hb.ascending b hmem).2] at hc
  exact hc

theorem IsPartition.nodup (h : IsPartition n bs) : bs.Nodup :=
  List.Nodup.of_map _ h.ordered.nodup

/-- Blocks that are the same sets are written down in the same way. -/
theorem parts_injOn (n : Nat) : Set.InjOn parts {bs | IsPartition n bs} := by
  intro bs (hb : IsPartition n bs) gs (hg : IsPartition n gs) h
  have hperm : bs.Perm gs := (List.perm_ext_iff_of_nodup hb.nodup hg.nodup).2 fun b =>
    ⟨fun hm => hb.subset_of_parts_eq hg.toShares h hm,
      fun hm => hg.subset_of_parts_eq hb.toShares h.symm hm⟩
  have hbs : bs.Pairwise fun b c => b.headD 0 < c.headD 0 := List.pairwise_map.1 hb.ordered
  have hgs : gs.Pairwise fun b c => b.headD 0 < c.headD 0 := List.pairwise_map.1 hg.ordered
  exact hperm.eq_of_pairwise (fun _ _ _ _ hlt hgt => absurd hlt (Nat.lt_asymm hgt)) hbs hgs

/-- Every set partition shares out the numbers, with its blocks in some order. -/
theorem exists_shares (P : Finpartition (Finset.range n)) :
    ∃ gs, Shares n gs ∧ parts gs = P.parts := by
  have hmem (x : Nat) : x ∈ (P.parts.toList.map (·.sort (· ≤ ·))).flatten ↔ x ∈ List.range n := by
    have hunion := Finset.ext_iff.1 P.biUnion_parts x
    rw [Finset.mem_biUnion, Finset.mem_range] at hunion
    simpa using hunion
  have hnodup : (P.parts.toList.map (·.sort (· ≤ ·))).flatten.Nodup := by
    refine List.nodup_flatten.2 ⟨?_, List.pairwise_map.2 ?_⟩
    · rintro b hb
      obtain ⟨p, -, rfl⟩ := List.mem_map.1 hb
      exact p.sort_nodup _
    · refine P.parts.nodup_toList.pairwise_of_forall_ne fun p hp q hq hne => ?_
      have hdisjoint := P.disjoint (Finset.mem_toList.1 hp) (Finset.mem_toList.1 hq) hne
      intro x hx hx'
      exact Finset.disjoint_left.1 hdisjoint ((p.mem_sort _).1 hx) ((q.mem_sort _).1 hx')
  refine ⟨P.parts.toList.map (·.sort (· ≤ ·)), ⟨?_, ?_⟩, ?_⟩
  · exact (List.perm_ext_iff_of_nodup hnodup List.nodup_range).2 hmem
  · intro b hb
    obtain ⟨p, hp, rfl⟩ := List.mem_map.1 hb
    obtain ⟨x, hx⟩ := P.nonempty_of_mem_parts (Finset.mem_toList.1 hp)
    exact ⟨List.ne_nil_of_mem ((p.mem_sort _).2 hx), p.sortedLT_sort.pairwise⟩
  · rw [parts, List.map_map]
    simp [Function.comp_def]

theorem parts_perm (h : bs.Perm gs) : parts bs = parts gs :=
  List.toFinset_eq_of_perm _ _ (h.map _)

theorem parts_bijOn (n : Nat) : Set.BijOn parts {bs | IsPartition n bs}
    {p | ∃ P : Finpartition (Finset.range n), P.parts = p} := by
  refine ⟨fun bs h => ⟨h.finpartition, rfl⟩, parts_injOn n, ?_⟩
  rintro p ⟨P, rfl⟩
  obtain ⟨gs, hgs, hp⟩ := exists_shares P
  obtain ⟨bs, hbs, hperm⟩ := hgs.exists_grown
  exact ⟨bs, hbs.isPartition, (parts_perm hperm).trans hp⟩

/-- For at least one block, the partitions that are listed are those of the numbers below `n` into `k`
blocks, each once, and as sets of sets they are all that there are. The search for them takes no
difference below zero, and it gives up just those blocks of the first numbers from which no partition
goes on. -/
theorem partitions_exact (n : Nat) (hk : 1 ≤ k) :
    (∀ bs, bs ∈ partitions n k ↔ IsPartition n bs ∧ bs.length = k) ∧
      (partitions n k).Nodup ∧
      Set.BijOn parts {bs | bs ∈ partitions n k}
        {p | p.card = k ∧ ∃ P : Finpartition (Finset.range n), P.parts = p} ∧
      (n < k → partitions n k = []) ∧
      extendChecked n k n 0 [] = some (partitions n k) ∧
      ∀ i bs, i < n → IsPartition i bs → bs.length ≤ k →
        (n - i < k - bs.length ↔
          ¬ ∃ gs, IsPartition n gs ∧ gs.length = k ∧ upTo i gs = bs) := by
  have hmem (bs : List (List Nat)) : bs ∈ partitions n k ↔ IsPartition n bs ∧ bs.length = k :=
    mem_partitions_iff hk
  refine ⟨hmem, ?_, ⟨?_, ?_, ?_⟩, ?_, ?_, ?_⟩
  · rw [partitions_eq_extend hk]
    exact Grown.nil.nodup_extend
  · intro bs hbs
    obtain ⟨hpart, rfl⟩ := (hmem bs).1 hbs
    exact ⟨hpart.card_parts, hpart.finpartition, rfl⟩
  · exact (parts_injOn n).mono fun bs hbs => ((hmem bs).1 hbs).1
  · rintro p ⟨rfl, hp⟩
    obtain ⟨bs, hbs, rfl⟩ := (parts_bijOn n).surjOn hp
    exact ⟨bs, (hmem bs).2 ⟨hbs, hbs.card_parts.symm⟩, rfl⟩
  · intro hlt
    rw [partitions, if_pos (by simp [hlt])]
  · rw [partitions_eq_extend hk]
    exact extendChecked_eq (Nat.zero_le k) (Nat.zero_add n)
  · intro i bs hi hbs hb
    have hn : i + (n - i) = n := Nat.add_sub_cancel' (Nat.le_of_lt hi)
    rw [lt_missing_iff hbs hb hk, hn]

/-- Of four numbers into three blocks, not from one block of the first three. -/
theorem partitions_exact_four :
    (partitions 4 3).Nodup ∧ [[0], [1, 3], [2]] ∈ partitions 4 3 ∧
      ¬ ∃ gs, IsPartition 4 gs ∧ gs.length = 3 ∧ upTo 3 gs = [[0, 1, 2]] := by
  obtain ⟨hmem, hnodup, -, -, -, hgives⟩ := partitions_exact (k := 3) 4 (by decide)
  have hthree : IsPartition 4 [[0], [1, 3], [2]] := ⟨⟨by decide, by decide⟩, by decide⟩
  have hone : IsPartition 3 [[0, 1, 2]] := ⟨⟨by decide, by decide⟩, by decide⟩
  exact ⟨hnodup, (hmem _).2 ⟨hthree, rfl⟩, (hgives 3 _ (by decide) hone (by decide)).1 (by decide)⟩

end Symbolic.Blocks
