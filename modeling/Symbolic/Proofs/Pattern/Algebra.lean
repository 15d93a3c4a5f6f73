import Symbolic.Proofs.Pattern.Exact

/-!
The algebra of sets of assignments. Conjunction and disjunction are described by what a set holds up
to equality: `s.union t` what either set holds (`has_union_iff`), and `s.inter t` the joins of an
assignment of `s` and one of `t` (`has_inter_iff`). The laws follow from there. That conjunction is
associative rests on `Joins.assoc`: whatever joins three assignments includes each two of them, so
these can be merged, and it does not matter which two are merged first.

The sets in question are those that can be built (`Built`). No such set holds two equal assignments,
and their bindings are in order, so that assignments are equal exactly if they agree
(`Sorted.same_iff`).
-/

namespace Symbolic

open Symbolic.Expr

mutual

/-- An assignment that can be built: of bindings that are merged, or taken from a set. -/
inductive Assignment.Built : Assignment → Prop
  | empty : Assignment.Built .empty
  | single (s : Symbol) (e : Expr) : Assignment.Built (.single s e)
  | merge {a b c : Assignment} (ha : Assignment.Built a) (hb : Assignment.Built b)
      (hc : a.merge? b = some c) : Assignment.Built c
  | mem {s : AssignmentSet} {a : Assignment} (hs : AssignmentSet.Built s) (ha : a ∈ s.results) :
      Assignment.Built a

/-- A set of assignments that can be built, or that matching finds. -/
inductive AssignmentSet.Built : AssignmentSet → Prop
  | none : AssignmentSet.Built .none
  | all : AssignmentSet.Built .all
  | single {a : Assignment} (ha : Assignment.Built a) : AssignmentSet.Built (.single a)
  | ofList {as : List Assignment} (has : ∀ a ∈ as, Assignment.Built a) :
      AssignmentSet.Built (.ofList as)
  | inter {s t : AssignmentSet} (hs : AssignmentSet.Built s) (ht : AssignmentSet.Built t) :
      AssignmentSet.Built (s.inter t)
  | union {s t : AssignmentSet} (hs : AssignmentSet.Built s) (ht : AssignmentSet.Built t) :
      AssignmentSet.Built (s.union t)
  | found (p : Pattern) (e : Expr) : AssignmentSet.Built (p.matches? e)

end

namespace Assignment

variable {a b c d a' b' c' : Assignment}

/-! Assignments that agree. -/

theorem Agrees.refl (a : Assignment) : a.Agrees a := (Includes.refl a).agrees fun _ h => h

theorem Includes.bound (h : b.Includes a) {s : Symbol} (ha : ∃ d, a.get? s = some d) :
    ∃ d, b.get? s = some d := by
  obtain ⟨e, he⟩ := ha
  obtain ⟨d, hd, -⟩ := h s e he
  exact ⟨d, hd⟩

theorem agrees_iff : a.Agrees b ↔ a.Includes b ∧ b.Includes a :=
  ⟨fun h => ⟨h.includes, h.symm.includes⟩, fun ⟨hab, hba⟩ => hab.agrees fun _ h => hba.bound h⟩

theorem Agrees.trans (h : a.Agrees b) (h' : b.Agrees c) : a.Agrees c :=
  agrees_iff.2 ⟨h.includes.trans h'.includes, h'.symm.includes.trans h.symm.includes⟩

theorem Sorted.same_iff (ha : a.Sorted) (hb : b.Sorted) : a.same b = true ↔ a.Agrees b :=
  ⟨fun h => agrees_iff.2 (includes_of_same h), fun h => h.same ha hb⟩

/-- What is equal to an assignment has its bindings in the same order. -/
theorem Sorted.of_same (hb : b.Sorted) (h : a.same b = true) : a.Sorted := by
  rw [Assignment.same, Bool.and_eq_true, beq_iff_eq] at h
  have hkeys (a : Assignment) :
      a.Sorted ↔ (a.bindings.map (·.1)).Pairwise fun s t => s.order t = .lt := by
    rw [Sorted, List.pairwise_map]
  rw [hkeys] at hb ⊢
  rwa [h.1]

theorem Sorted.single (ha : a.Sorted) : a.Single := by
  obtain ⟨bs⟩ := a
  induction bs with
  | nil => exact List.forall_mem_nil _
  | cons q bs ih =>
    obtain ⟨hq, hbs⟩ := List.pairwise_cons.1 ha
    refine List.forall_mem_cons.2 ⟨by rw [get?_cons, if_pos rfl], fun p hp => ?_⟩
    have hne : q.1 ≠ p.1 := by
      intro heq
      have hlt := hq p hp
      rw [heq, Symbol.order_refl] at hlt
      cases hlt
    rw [get?_cons, if_neg hne]
    exact ih hbs p hp

/-! Joins. -/

theorem Joins.symm (h : Joins a b c) : Joins b a c where
  left := h.right
  right := h.left
  bound s e he := (h.bound s e he).symm

theorem Joins.congr (h : Joins a b c) (ha : a.Agrees a') (hb : b.Agrees b') (hc : c.Agrees c') :
    Joins a' b' c' where
  left := hc.symm.includes.trans (h.left.trans ha.includes)
  right := hc.symm.includes.trans (h.right.trans hb.includes)
  bound s e he := by
    obtain ⟨d, hd⟩ := hc.includes.bound ⟨e, he⟩
    exact (h.bound s d hd).imp ha.symm.includes.bound hb.symm.includes.bound

/-- What joins two assignments is included in whatever includes both. -/
theorem Joins.least (h : Joins a b c) (hda : d.Includes a) (hdb : d.Includes b) :
    d.Includes c := by
  intro s e he
  rcases h.bound s e he with ⟨f, hf⟩ | ⟨f, hf⟩
  · obtain ⟨g, hg, hgf⟩ := hda s f hf
    obtain ⟨e', he', hef⟩ := h.left s f hf
    obtain rfl := Option.some.inj (he.symm.trans he')
    exact ⟨g, hg, hgf.trans hef.symm⟩
  · obtain ⟨g, hg, hgf⟩ := hdb s f hf
    obtain ⟨e', he', hef⟩ := h.right s f hf
    obtain rfl := Option.some.inj (he.symm.trans he')
    exact ⟨g, hg, hgf.trans hef.symm⟩

theorem Joins.unique (h : Joins a b c) (h' : Joins a b d) : c.Agrees d :=
  agrees_iff.2 ⟨h'.least h.left h.right, h.least h'.left h'.right⟩

/-- An assignment that joins `a` and `b` with `d` joins `a` with what joins `b` and `d`. -/
theorem Joins.assoc {m n : Assignment} (hm : Joins a b m) (hc : Joins m d c) (hn : Joins b d n) :
    Joins a n c where
  left := hc.left.trans hm.left
  right := hn.least (hc.left.trans hm.right) hc.right
  bound s e he := by
    rcases hc.bound s e he with ⟨f, hf⟩ | hd
    · exact (hm.bound s f hf).imp_right hn.left.bound
    · exact .inr (hn.right.bound hd)

/-- Merging succeeds exactly if some assignment joins the two, and gives the one that does. -/
theorem merge?_iff (ha : a.Sorted) (hb : b.Sorted) :
    (∃ m, a.merge? b = some m ∧ c.same m = true) ↔ c.Sorted ∧ Joins a b c := by
  constructor
  · rintro ⟨m, hm, hcm⟩
    have hms : m.Sorted := ha.bindAll? hm
    have hcs := hms.of_same hcm
    have hagree := ((hcs.same_iff hms).1 hcm).symm
    exact ⟨hcs, (joins_of_merge? hb.single hm).congr (.refl a) (.refl b) hagree⟩
  · rintro ⟨hcs, hc⟩
    obtain ⟨m, hm, -⟩ := exists_merge? hb.single hc.left hc.right
    have hagree := hc.unique (joins_of_merge? hb.single hm)
    exact ⟨m, hm, hagree.same hcs (ha.bindAll? hm)⟩

end Assignment

namespace AssignmentSet

open Assignment

variable {s t u s' t' : AssignmentSet} {a b c : Assignment}

/-! What a set holds. -/

/-- The set holds an assignment that is equal. -/
def Has (s : AssignmentSet) (c : Assignment) : Prop := ∃ a ∈ s.results, c.same a = true

/-- The two sets hold the same assignments, up to equality. -/
def SameAs (s t : AssignmentSet) : Prop := ∀ c, s.Has c ↔ t.Has c

theorem Proper.has_iff (hs : s.Proper) : s.Has c ↔ c.Sorted ∧ ∃ a ∈ s.results, c.Agrees a := by
  constructor
  · rintro ⟨a, ha, hca⟩
    have hc := (hs.sorted a ha).of_same hca
    exact ⟨hc, a, ha, (hc.same_iff (hs.sorted a ha)).1 hca⟩
  · rintro ⟨hc, a, ha, hca⟩
    exact ⟨a, ha, hca.same hc (hs.sorted a ha)⟩

theorem not_has_of_isNone (hs : s.isNone = true) : ¬ s.Has c := by
  rintro ⟨a, ha, -⟩
  rw [isNone_eq_true.1 hs] at ha
  cases ha

/-- Collecting assignments drops only what is equal to an earlier one. -/
theorem has_ofList_iff {as : List Assignment} (has : ∀ a ∈ as, a.Sorted) :
    (ofList as).Has c ↔ c.Sorted ∧ ∃ a ∈ as, c.Agrees a := by
  rw [(proper_ofList has).has_iff]
  refine and_congr_right fun _ => ⟨?_, ?_⟩
  · rintro ⟨a, ha, hca⟩
    exact ⟨a, mem_of_mem_distinctFrom a ha, hca⟩
  · rintro ⟨a, ha, hca⟩
    obtain ⟨b, hb, hab⟩ := exists_mem_ofList ha
    exact ⟨b, hb, hca.trans (agrees_iff.2 hab)⟩

theorem Proper.union (hs : s.Proper) (ht : t.Proper) : (s.union t).Proper := by
  rw [AssignmentSet.union]
  split
  · exact hs
  split
  · exact ht
  · exact proper_ofList (List.forall_mem_append.2 ⟨hs.sorted, ht.sorted⟩)

theorem has_union_iff (hs : s.Proper) (ht : t.Proper) :
    (s.union t).Has c ↔ s.Has c ∨ t.Has c := by
  rw [AssignmentSet.union]
  split
  · next hn => rw [or_iff_left (not_has_of_isNone hn)]
  split
  · next hn => rw [or_iff_right (not_has_of_isNone hn)]
  · rw [has_ofList_iff (List.forall_mem_append.2 ⟨hs.sorted, ht.sorted⟩), hs.has_iff, ht.has_iff,
      ← and_or_left]
    simp only [List.mem_append, or_and_right, exists_or]

/-- A conjunction holds the joins of an assignment of each set. -/
theorem has_inter_iff_mem (hs : s.Proper) (ht : t.Proper) :
    (s.inter t).Has c ↔ c.Sorted ∧ ∃ a ∈ s.results, ∃ b ∈ t.results, Joins a b c := by
  have hsingle : t.Single := fun b hb => (ht.sorted b hb).single
  rw [(hs.inter ht).has_iff]
  refine and_congr_right fun _ => ⟨?_, ?_⟩
  · rintro ⟨c', hc', hcc'⟩
    obtain ⟨a, ha, b, hb, hj⟩ := joins_of_mem_inter hsingle hc'
    exact ⟨a, ha, b, hb, hj.congr (.refl a) (.refl b) hcc'.symm⟩
  · rintro ⟨a, ha, b, hb, hj⟩
    obtain ⟨c', hc', hj', -⟩ := exists_mem_inter hsingle ha hb hj.left hj.right
    exact ⟨c', hc', hj.unique hj'⟩

theorem has_inter_iff (hs : s.Proper) (ht : t.Proper) :
    (s.inter t).Has c ↔ c.Sorted ∧ ∃ a, s.Has a ∧ ∃ b, t.Has b ∧ Joins a b c := by
  rw [has_inter_iff_mem hs ht]
  refine and_congr_right fun _ => ⟨?_, ?_⟩
  · rintro ⟨a, ha, b, hb, hj⟩
    exact ⟨a, hs.has_iff.2 ⟨hs.sorted a ha, a, ha, .refl a⟩, b,
      ht.has_iff.2 ⟨ht.sorted b hb, b, hb, .refl b⟩, hj⟩
  · rintro ⟨a, ha, b, hb, hj⟩
    obtain ⟨-, a', ha', haa'⟩ := hs.has_iff.1 ha
    obtain ⟨-, b', hb', hbb'⟩ := ht.has_iff.1 hb
    exact ⟨a', ha', b', hb', hj.congr haa' hbb' (.refl c)⟩

/-! The laws. -/

theorem eq_none (hs : s.isNone = true) : s = none := congrArg mk (isNone_eq_true.1 hs)

theorem eq_all (hs : s.isAll = true) : s = all := congrArg mk (isAll_eq_true hs)

theorem union_none (s : AssignmentSet) : s.union none = s := if_pos rfl

theorem none_union (s : AssignmentSet) : none.union s = s := by
  rw [AssignmentSet.union]
  split
  · next hn => exact (eq_none hn).symm
  · exact if_pos rfl

theorem inter_none (s : AssignmentSet) : s.inter none = none :=
  if_pos (Bool.or_eq_true_iff.2 (.inr rfl))

theorem none_inter (s : AssignmentSet) : none.inter s = none := if_pos rfl

theorem all_inter (s : AssignmentSet) : all.inter s = s := by
  rw [AssignmentSet.inter]
  split
  · next hn => exact (eq_none ((Bool.or_eq_true_iff.1 hn).resolve_left Bool.false_ne_true)).symm
  · exact if_pos rfl

theorem inter_all (s : AssignmentSet) : s.inter all = s := by
  rw [AssignmentSet.inter]
  split
  · next hn => exact (eq_none ((Bool.or_eq_true_iff.1 hn).resolve_right Bool.false_ne_true)).symm
  split
  · next ha => exact (eq_all ha).symm
  · exact if_pos rfl

theorem inter_comm (hs : s.Proper) (ht : t.Proper) : (s.inter t).SameAs (t.inter s) := by
  intro c
  rw [has_inter_iff hs ht, has_inter_iff ht hs]
  refine and_congr_right fun _ => ⟨?_, ?_⟩
  · exact fun ⟨a, ha, b, hb, hj⟩ => ⟨b, hb, a, ha, hj.symm⟩
  · exact fun ⟨b, hb, a, ha, hj⟩ => ⟨a, ha, b, hb, hj.symm⟩

theorem inter_assoc (hs : s.Proper) (ht : t.Proper) (hu : u.Proper) :
    ((s.inter t).inter u).SameAs (s.inter (t.inter u)) := by
  have single {s : AssignmentSet} (hs : s.Proper) : s.Single := fun a ha => (hs.sorted a ha).single
  intro c
  rw [has_inter_iff_mem (hs.inter ht) hu, has_inter_iff_mem hs (ht.inter hu)]
  -- what joins all three includes the two that have not been merged, so they can be
  refine and_congr_right fun _ => ⟨?_, ?_⟩
  · rintro ⟨m, hm, d, hd, hc⟩
    obtain ⟨a, ha, b, hb, hab⟩ := joins_of_mem_inter (single ht) hm
    obtain ⟨n, hn, hbd, -⟩ :=
      exists_mem_inter (single hu) hb hd (hc.left.trans hab.right) hc.right
    exact ⟨a, ha, n, hn, hab.assoc hc hbd⟩
  · rintro ⟨a, ha, n, hn, hc⟩
    obtain ⟨b, hb, d, hd, hbd⟩ := joins_of_mem_inter (single hu) hn
    obtain ⟨m, hm, hab, -⟩ :=
      exists_mem_inter (single ht) ha hb hc.left (hc.right.trans hbd.left)
    exact ⟨m, hm, d, hd, (hbd.symm.assoc hc.symm hab.symm).symm⟩

theorem inter_union (hs : s.Proper) (ht : t.Proper) (hu : u.Proper) :
    (s.inter (t.union u)).SameAs ((s.inter t).union (s.inter u)) := by
  intro c
  rw [has_inter_iff hs (ht.union hu), has_union_iff (hs.inter ht) (hs.inter hu),
    has_inter_iff hs ht, has_inter_iff hs hu, ← and_or_left]
  simp only [has_union_iff ht hu, or_and_right, exists_or, and_or_left]

end AssignmentSet

/-! Sets that can be built. -/

open Assignment AssignmentSet

mutual

theorem Assignment.Built.sorted {a : Assignment} : a.Built → a.Sorted
  | .empty => .nil
  | .single _ _ => List.pairwise_singleton _ _
  | .merge ha _ hc => ha.sorted.bindAll? hc
  | .mem hs ha => hs.proper.sorted _ ha

theorem AssignmentSet.Built.proper {s : AssignmentSet} : s.Built → s.Proper
  | .none => ⟨List.forall_mem_nil _, .nil⟩
  | .all => proper_singleton .nil
  | .single ha => proper_singleton ha.sorted
  | .ofList has => proper_ofList fun a ha => (has a ha).sorted
  | .inter hs ht => hs.proper.inter ht.proper
  | .union hs ht => hs.proper.union ht.proper
  | .found p e => matcher_proper p.expr e

end

namespace AssignmentSet

/-- The algebra of three sets, up to equality of assignments. -/
structure Laws (s t u : AssignmentSet) : Prop where
  distinct : s.results.Pairwise fun a b => a.same b = false
  union_assoc : ((s.union t).union u).SameAs (s.union (t.union u))
  union_comm : (s.union t).SameAs (t.union s)
  union_self : (s.union s).SameAs s
  union_identity : s.union none = s ∧ none.union s = s
  inter_assoc : ((s.inter t).inter u).SameAs (s.inter (t.inter u))
  inter_comm : (s.inter t).SameAs (t.inter s)
  inter_identity : s.inter all = s ∧ all.inter s = s
  inter_zero : s.inter none = none ∧ none.inter s = none
  inter_union : (s.inter (t.union u)).SameAs ((s.inter t).union (s.inter u))
  /-- A conjunction holds what an assignment of each set merge to. -/
  mem_inter : ∀ c, (s.inter t).Has c ↔
    ∃ a ∈ s.results, ∃ b ∈ t.results, ∃ m, a.merge? b = some m ∧ c.same m = true
  /-- Two assignments merge to whatever joins them, and have a conflict if nothing does. -/
  merges : ∀ a ∈ s.results, ∀ b ∈ t.results, ∀ c, c.Built →
    ((∃ m, a.merge? b = some m ∧ c.same m = true) ↔ Joins a b c)

/-- Conjunction and disjunction of sets that can be built obey the laws, and no such set holds two
equal assignments. -/
theorem built_laws {s t u : AssignmentSet} (hs : s.Built) (ht : t.Built) (hu : u.Built) :
    Laws s t u := by
  have hs' := hs.proper
  have ht' := ht.proper
  have hu' := hu.proper
  have hmerge {a b c : Assignment} (ha : a ∈ s.results) (hb : b ∈ t.results) :=
    merge?_iff (c := c) (hs'.sorted a ha) (ht'.sorted b hb)
  constructor
  case distinct =>
    refine hs'.pairwise.imp_of_mem fun ha hb hab => Bool.eq_false_iff.2 fun h => hab ?_
    exact ((hs'.sorted _ ha).same_iff (hs'.sorted _ hb)).1 h
  case union_assoc =>
    intro c
    rw [has_union_iff (hs'.union ht') hu', has_union_iff hs' ht', has_union_iff hs' (ht'.union hu'),
      has_union_iff ht' hu', or_assoc]
  case union_comm =>
    intro c
    rw [has_union_iff hs' ht', has_union_iff ht' hs', or_comm]
  case union_self =>
    intro c
    rw [has_union_iff hs' hs', or_self]
  case union_identity => exact ⟨union_none s, none_union s⟩
  case inter_assoc => exact AssignmentSet.inter_assoc hs' ht' hu'
  case inter_comm => exact AssignmentSet.inter_comm hs' ht'
  case inter_identity => exact ⟨inter_all s, all_inter s⟩
  case inter_zero => exact ⟨inter_none s, none_inter s⟩
  case inter_union => exact AssignmentSet.inter_union hs' ht' hu'
  case mem_inter =>
    intro c
    rw [has_inter_iff_mem hs' ht']
    constructor
    · rintro ⟨hc, a, ha, b, hb, hj⟩
      exact ⟨a, ha, b, hb, (hmerge ha hb).2 ⟨hc, hj⟩⟩
    · rintro ⟨a, ha, b, hb, hm⟩
      obtain ⟨hc, hj⟩ := (hmerge ha hb).1 hm
      exact ⟨hc, a, ha, b, hb, hj⟩
  case merges =>
    intro a ha b hb c hc
    rw [hmerge ha hb, and_iff_right hc.sorted]

/-- Of two ways to bind `a`, one has a conflict with `a ↦ y`. -/
theorem built_laws_conflict :
    let x := ofName "x"
    let y := ofName "y"
    let s := (single (.single ⟨"a"⟩ x)).union (single (.single ⟨"a"⟩ y))
    let t := single (.single ⟨"a"⟩ y)
    let u := single (.single ⟨"b"⟩ x)
    s.Built ∧ t.Built ∧ u.Built ∧ (s.inter t).results.length = 1 ∧
      ((s.inter t).inter u).results.length = 1 ∧ Laws s t u := by
  intro x y s t u
  have hs : s.Built := .union (.single (.single _ x)) (.single (.single _ y))
  have ht : t.Built := .single (.single _ y)
  have hu : u.Built := .single (.single _ x)
  exact ⟨hs, ht, hu, by decide +kernel, by decide +kernel, built_laws hs ht hu⟩

end AssignmentSet

end Symbolic
