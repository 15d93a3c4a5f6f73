import Symbolic.Proofs.Expr.Alike
import Symbolic.Proofs.Expr.Groups

/-!
The groups of a list, whatever its order. A group holds the parts of all elements of its base
(`parts_eq_of_mem_groupAll`), no two groups have equal bases (`pairwise_groupAll`), and every
element has a group (`exists_mem_groupAll`). So the groups of a rearranged list are the groups of
the list, rearranged (`rearranged_groupAll`). What groups give way to is determined by what each
base has (`rearranged_merged`).
-/

namespace Symbolic.Expr

variable {α : Type} {split : Expr → Expr × α}

/-- The parts of the elements of a base. -/
def partsOfBase (split : Expr → Expr × α) (base : Expr) (es : List Expr) : List α :=
  (es.filter fun e => base.alike (split e).1).map fun e => (split e).2

theorem exists_mem_groupAll {es : List Expr} {e : Expr} (he : e ∈ es) :
    ∃ g ∈ groupAll split es, Alike g.base (split e).1 := by
  induction es using List.reverseRecOn with
  | nil => cases he
  | append_singleton es d ih =>
    -- no group is given up, and the last element goes to one of its base
    have hlast : ∃ g ∈ groupAll split (es ++ [d]), Alike g.base (split d).1 := by
      rw [groupAll_concat]
      rcases Group.insert_cases d (split d).1 (split d).2 (groupAll split es) with
        ⟨us, g, vs, -, hb, h⟩ | ⟨-, h⟩
      · exact ⟨g.add (split d).2, by simp [h], hb⟩
      · exact ⟨_, by rw [h]; exact List.mem_append_right _ List.mem_cons_self, .refl _⟩
    rcases List.mem_append.1 he with he | he
    · obtain ⟨g, hg, hb⟩ := ih he
      rw [groupAll_concat]
      rcases Group.insert_cases d (split d).1 (split d).2 (groupAll split es) with
        ⟨us, g', vs, hgs, -, h⟩ | ⟨-, h⟩
      · rw [hgs, List.mem_append, List.mem_cons] at hg
        rcases hg with hg | rfl | hg
        · exact ⟨g, by simp [h, hg], hb⟩
        · exact ⟨g.add (split d).2, by simp [h], hb⟩
        · exact ⟨g, by simp [h, hg], hb⟩
      · exact ⟨g, by simp [h, hg], hb⟩
    · rw [List.mem_singleton.1 he]
      exact hlast

/-- No two groups have equal bases. -/
theorem pairwise_groupAll (es : List Expr) :
    (groupAll split es).Pairwise fun g g' => ¬Alike g.base g'.base := by
  rw [← List.pairwise_map (f := Group.base) (R := fun b b' => ¬Alike b b')]
  induction es using List.reverseRecOn with
  | nil => exact .nil
  | append_singleton es e ih =>
    rw [groupAll_concat]
    rcases Group.insert_cases e (split e).1 (split e).2 (groupAll split es) with
      ⟨us, g, vs, hgs, -, h⟩ | ⟨hn, h⟩
    · rw [hgs] at ih
      rwa [h, List.map_append, List.map_cons, Group.add] at *
    · rw [h, List.map_append]
      refine List.pairwise_append.2 ⟨ih, List.pairwise_singleton _ _, ?_⟩
      intro b hb b' hb'
      obtain ⟨g, hg, rfl⟩ := List.mem_map.1 hb
      rw [List.mem_singleton.1 hb', Alike, hn g hg]
      exact Bool.false_ne_true

theorem partsOfBase_concat (base : Expr) (es : List Expr) (e : Expr) :
    partsOfBase split base (es ++ [e]) =
      partsOfBase split base es ++ if base.alike (split e).1 then [(split e).2] else [] := by
  rw [partsOfBase, List.filter_append, List.map_append, ← partsOfBase]
  by_cases h : base.alike (split e).1 = true
  · rw [List.filter_cons_of_pos (by exact h), if_pos h]
    rfl
  · rw [List.filter_cons_of_neg (by exact h), if_neg h]
    rfl

theorem parts_eq_of_mem_groupAll {es : List Expr} {g : Group α} (hg : g ∈ groupAll split es) :
    g.parts = partsOfBase split g.base es := by
  induction es using List.reverseRecOn generalizing g with
  | nil => cases hg
  | append_singleton es e ih =>
    have happart : (groupAll split es).Pairwise _ := pairwise_groupAll es
    rw [partsOfBase_concat]
    rw [groupAll_concat] at hg
    rcases Group.insert_cases e (split e).1 (split e).2 (groupAll split es) with
      ⟨us, g', vs, hgs, hb, h⟩ | ⟨hn, h⟩
    · -- the other groups have other bases, so they leave the part out
      rw [hgs] at happart ih
      obtain ⟨-, hvs, hus⟩ := List.pairwise_append.1 happart
      rw [h, List.mem_append, List.mem_cons] at hg
      rcases hg with hg | rfl | hg
      · have hne : ¬g.base.alike (split e).1 = true :=
          fun hge => hus g hg g' List.mem_cons_self (Alike.trans hge (Alike.symm hb))
        rw [if_neg hne, List.append_nil]
        exact ih (List.mem_append_left _ hg)
      · rw [Group.add, if_pos hb, ih (g := g') (by simp)]
      · have hne : ¬g.base.alike (split e).1 = true :=
          fun hge => (List.pairwise_cons.1 hvs).1 g hg (Alike.trans hb (Alike.symm hge))
        rw [if_neg hne, List.append_nil]
        exact ih (List.mem_append_right _ (List.mem_cons_of_mem _ hg))
    · rw [h, List.mem_append, List.mem_singleton] at hg
      rcases hg with hg | rfl
      · rw [hn g hg, if_neg Bool.false_ne_true, List.append_nil]
        exact ih hg
      · -- a new group: nothing before has its base
        have hnil : partsOfBase split (split e).1 es = [] := by
          rw [partsOfBase, List.map_eq_nil_iff, List.filter_eq_nil_iff]
          intro d hd hed
          obtain ⟨g, hg, hgd⟩ : ∃ g ∈ groupAll split es, Alike g.base (split d).1 :=
            exists_mem_groupAll hd
          exact Bool.false_ne_true ((hn g hg).symm.trans (hgd.trans (Alike.symm hed)))
        rw [hnil, if_pos (alike_refl _), List.nil_append]

/-- Groups of equal bases with the same parts; what stands alone in them is equal. -/
structure GroupAlike (R : α → α → Prop) (g g' : Group α) : Prop where
  base : Alike g.base g'.base
  parts : Rearranged R g.parts g'.parts
  first : g.parts.length = 1 → Alike g.first g'.first

/-- Two elements are equal, and so are their bases and parts. -/
structure SplitAlike (split : Expr → Expr × α) (R : α → α → Prop) (a b : Expr) : Prop where
  whole : Alike a b
  base : Alike (split a).1 (split b).1
  part : R (split a).2 (split b).2

/-- The element that a group of one part holds is all there is of its base. -/
theorem filter_eq_first {es : List Expr} {g : Group α} (hg : g ∈ groupAll split es)
    (h1 : g.parts.length = 1) : es.filter (fun e => g.base.alike (split e).1) = [g.first] := by
  obtain ⟨hf, hb, -⟩ := groupAll_first hg
  have hmem : g.first ∈ es.filter fun e => g.base.alike (split e).1 :=
    List.mem_filter.2 ⟨hf, by rw [hb]; exact alike_refl _⟩
  rw [parts_eq_of_mem_groupAll hg, partsOfBase, List.length_map, List.length_eq_one_iff] at h1
  obtain ⟨e, he⟩ := h1
  rw [he, List.mem_singleton] at hmem
  rw [he, hmem]

variable {R : α → α → Prop}

/-- Groups of equal bases, one of a list and one of the list rearranged. -/
theorem groupAlike_of_base {as bs : List Expr} (h : Rearranged (SplitAlike split R) as bs)
    {g g' : Group α} (hg : g ∈ groupAll split as) (hg' : g' ∈ groupAll split bs)
    (hb : Alike g.base g'.base) : GroupAlike R g g' := by
  have hsame : ∀ a ∈ as, ∀ b ∈ bs, SplitAlike split R a b →
      g.base.alike (split a).1 = g'.base.alike (split b).1 := by
    intro a _ b _ hab
    rw [Bool.eq_iff_iff]
    exact ⟨fun ha => hb.symm.trans (Alike.trans ha hab.base),
      fun hb' => hb.trans (Alike.trans hb' hab.base.symm)⟩
  have hfilter := h.filter hsame
  have hparts : Rearranged R g.parts g'.parts := by
    rw [parts_eq_of_mem_groupAll hg, parts_eq_of_mem_groupAll hg']
    exact hfilter.map fun _ _ _ _ hab => hab.part
  refine ⟨hb, hparts, fun h1 => ?_⟩
  rw [filter_eq_first hg h1, filter_eq_first hg' (hparts.length_eq ▸ h1)] at hfilter
  obtain ⟨b, hb, hab⟩ := hfilter.exists_left _ List.mem_cons_self
  rw [List.mem_singleton] at hb
  exact hb ▸ hab.whole

/-- The groups of a rearranged list are the groups of the list, rearranged. -/
theorem rearranged_groupAll {as bs : List Expr} (h : Rearranged (SplitAlike split R) as bs) :
    Rearranged (GroupAlike R) (groupAll split as) (groupAll split bs) := by
  have hbase : Rearranged (fun g g' => Alike g.base g'.base) (groupAll split as)
      (groupAll split bs) := by
    refine rearranged_of_apart ?_ ?_ ?_ ?_
    · exact (pairwise_groupAll as).imp fun hn _ h h' => hn (h.trans h'.symm)
    · exact (pairwise_groupAll bs).imp fun hn _ h h' => hn (h.symm.trans h')
    · intro g hg
      obtain ⟨hf, hgb, -⟩ := groupAll_first hg
      obtain ⟨b, hb, hab⟩ := h.exists_left _ hf
      obtain ⟨g', hg', hgb'⟩ : ∃ g' ∈ groupAll split bs, Alike g'.base (split b).1 :=
        exists_mem_groupAll hb
      exact ⟨g', hg', hgb ▸ hab.base.trans hgb'.symm⟩
    · intro g hg
      obtain ⟨hf, hgb, -⟩ := groupAll_first hg
      obtain ⟨a, ha, hab⟩ := h.exists_right _ hf
      obtain ⟨g', hg', hgb'⟩ : ∃ g' ∈ groupAll split as, Alike g'.base (split a).1 :=
        exists_mem_groupAll ha
      exact ⟨g', hg', hgb ▸ hgb'.trans hab.base⟩
  exact hbase.imp fun g hg g' hg' => groupAlike_of_base h hg hg'

/-! What each base has. -/

theorem partsOfBase_append (base : Expr) (xs ys : List Expr) :
    partsOfBase split base (xs ++ ys) = partsOfBase split base xs ++ partsOfBase split base ys := by
  rw [partsOfBase, List.filter_append, List.map_append]
  rfl

theorem rearranged_partsOfBase {R : α → α → Prop} (base : Expr) {xs ys : List Expr}
    (h : Rearranged (SplitAlike split R) xs ys) :
    Rearranged R (partsOfBase split base xs) (partsOfBase split base ys) := by
  refine Rearranged.map (h.filter fun _ _ _ _ hxy => ?_) fun _ _ _ _ hxy => hxy.part
  exact Bool.eq_iff_iff.2
    ⟨fun hb => Alike.trans hb hxy.base, fun hb => Alike.trans hb hxy.base.symm⟩

theorem partsOfBase_congr {b b' : Expr} (h : Alike b b') (es : List Expr) :
    partsOfBase split b es = partsOfBase split b' es := by
  have hb (d : Expr) : b.alike d = b'.alike d :=
    Bool.eq_iff_iff.2 ⟨fun hd => h.symm.trans hd, fun hd => h.trans hd⟩
  simp only [partsOfBase, hb]

/-- A base has no part, or a group with its parts, which is the only one. -/
theorem group_of_base (split : Expr → Expr × α) (b : Expr) (es : List Expr) :
    (partsOfBase split b es = [] ∧ (groupAll split es).filter (b.alike ·.base) = []) ∨
      ∃ g ∈ groupAll split es, Alike b g.base ∧ g.parts = partsOfBase split b es ∧
        (groupAll split es).filter (b.alike ·.base) = [g] := by
  by_cases h : ∃ g ∈ groupAll split es, Alike b g.base
  · obtain ⟨g, hg, hb⟩ := h
    refine .inr ⟨g, hg, hb, ?_, ?_⟩
    · rw [parts_eq_of_mem_groupAll hg, partsOfBase_congr hb]
    · have happart : (groupAll split es).Pairwise _ := pairwise_groupAll es
      obtain ⟨us, vs, hgs⟩ := List.append_of_mem hg
      rw [hgs] at happart ⊢
      obtain ⟨-, hvs, hus⟩ := List.pairwise_append.1 happart
      have hu : us.filter (b.alike ·.base) = [] := List.filter_eq_nil_iff.2 fun u hu hbu =>
        hus u hu g List.mem_cons_self (Alike.trans (Alike.symm hbu) hb)
      have hv : vs.filter (b.alike ·.base) = [] := List.filter_eq_nil_iff.2 fun v hv hbv =>
        (List.pairwise_cons.1 hvs).1 v hv (hb.symm.trans hbv)
      rw [List.filter_append, hu, List.filter_cons_of_pos (by exact hb), hv, List.nil_append]
  · refine .inl ⟨?_, List.filter_eq_nil_iff.2 fun g hg hb => h ⟨g, hg, hb⟩⟩
    rw [partsOfBase, List.map_eq_nil_iff, List.filter_eq_nil_iff]
    intro e he hbe
    obtain ⟨g, hg, hge⟩ : ∃ g ∈ groupAll split es, Alike g.base (split e).1 :=
      exists_mem_groupAll he
    exact h ⟨g, hg, Alike.trans hbe hge.symm⟩

variable {merge : Group α → Option Expr}

/-- Where groups give way to elements of their bases, a base has what its group gives way to. -/
theorem partsOfBase_merged {es : List Expr}
    (hm : ∀ g ∈ groupAll split es, ∀ e ∈ merge g, Alike (split e).1 g.base) (b : Expr) :
    partsOfBase split b ((groupAll split es).filterMap merge) =
      (((groupAll split es).filter (b.alike ·.base)).filterMap merge).map fun e => (split e).2 := by
  rw [partsOfBase, List.filter_filterMap, List.filterMap_filter]
  congr 1
  refine List.filterMap_congr fun g hg => ?_
  cases he : merge g with
  | none => simp
  | some e =>
    have hge := hm g hg e he
    have hb : b.alike (split e).1 = b.alike g.base :=
      Bool.eq_iff_iff.2 ⟨fun h => Alike.trans h hge, fun h => Alike.trans h hge.symm⟩
    rw [Option.filter_some, hb]

/-- What the groups of two lists give way to, if groups of equal bases give way to equal elements and
the same bases have groups that do not vanish. -/
theorem rearranged_merged {merge' : Group α → Option Expr} {xs ys : List Expr}
    (present present' : List α → Bool) (hnil : present [] = false) (hnil' : present' [] = false)
    (hnone : ∀ g : Group α, present g.parts = false → merge g = none)
    (hnone' : ∀ g : Group α, present' g.parts = false → merge' g = none)
    (hxy : ∀ b, present (partsOfBase split b xs) = present' (partsOfBase split b ys))
    (hm : ∀ g ∈ groupAll split xs, ∀ g' ∈ groupAll split ys, Alike g.base g'.base →
      Option.Rel Alike (merge g) (merge' g')) :
    Rearranged Alike ((groupAll split xs).filterMap merge)
      ((groupAll split ys).filterMap merge') := by
  have hpresent {merge : Group α → Option Expr} {present : List α → Bool}
      (hnone : ∀ g : Group α, present g.parts = false → merge g = none) (es : List Expr) :
      (groupAll split es).filterMap merge =
        (((groupAll split es).filter (present ·.parts)).map merge).filterMap id := by
    rw [List.filterMap_map, List.filterMap_filter]
    refine List.filterMap_congr fun g _ => ?_
    split
    · rfl
    · next hp => exact hnone g (Bool.not_eq_true _ ▸ hp)
  -- a group that does not vanish has a partner that does not
  have hpartner {present present' : List α → Bool} {xs ys : List Expr} (hnil : present' [] = false)
      (hxy : ∀ b, present (partsOfBase split b xs) = present' (partsOfBase split b ys)) :
      ∀ g ∈ (groupAll split xs).filter (present ·.parts),
        ∃ g' ∈ (groupAll split ys).filter (present' ·.parts), Alike g.base g'.base := by
    intro g hg
    obtain ⟨hg, hp⟩ := List.mem_filter.1 hg
    rw [parts_eq_of_mem_groupAll hg, hxy] at hp
    rcases group_of_base split g.base ys with ⟨hn, -⟩ | ⟨g', hg', hb, hparts, -⟩
    · rw [hn, hnil] at hp
      cases hp
    · exact ⟨g', List.mem_filter.2 ⟨hg', hparts ▸ hp⟩, hb⟩
  have hgroups : Rearranged (fun g g' => Alike g.base g'.base)
      ((groupAll split xs).filter (present ·.parts))
      ((groupAll split ys).filter (present' ·.parts)) := by
    refine rearranged_of_apart ?_ ?_ (hpartner hnil' hxy) fun g' hg' => ?_
    · exact ((pairwise_groupAll xs).filter _).imp fun hn _ h h' => hn (h.trans h'.symm)
    · exact ((pairwise_groupAll ys).filter _).imp fun hn _ h h' => hn (h.symm.trans h')
    · obtain ⟨g, hg, hb⟩ := hpartner hnil (fun b => (hxy b).symm) g' hg'
      exact ⟨g, hg, hb.symm⟩
  rw [hpresent hnone, hpresent hnone']
  exact (hgroups.map fun g hg g' hg' hb =>
    hm g (List.mem_filter.1 hg).1 g' (List.mem_filter.1 hg').1 hb).filterMap_id

end Symbolic.Expr
