import Mathlib.Algebra.Order.BigOperators.Group.List
import Mathlib.Algebra.Order.Group.Nat
import Symbolic.Proofs.Canonical.Mass

/-!
What the constructors have to do within a number of steps: give a canonical expression that weighs
no more than what it is made of, and less where like terms or like powers were merged. The steps
that are needed are bounded by the masses of the operands.
-/

namespace Symbolic.Expr

def PowersMerged (fs : List Expr) : Prop := Apart asPower (nonConstants fs)

/-- No like terms are left in a list of terms, nor like powers in a term with a coefficient. -/
def TermsMerged (ts : List Expr) : Prop :=
  Apart asMultiple (nonConstants ts) ∧
    ∀ fs, product fs ∈ ts → constants fs ≠ [] → PowersMerged fs

/-- What the sum `e` of the list `ts` is like. -/
structure SumSpec (ts : List Expr) (e : Expr) : Prop where
  canonical : Canonical e
  mass_le : mass e ≤ max 1 (masses ts)
  mass_lt : ¬TermsMerged (ts.flatMap terms) → mass e < masses ts

structure ProductSpec (fs : List Expr) (e : Expr) : Prop where
  canonical : Canonical e
  mass_le : mass e ≤ max 1 (masses fs)
  mass_lt : ¬PowersMerged (fs.flatMap factors) → mass e < masses fs
  mass_lt_of_sum : constants (fs.flatMap factors) ≠ [] → e.isSum = true → mass e < masses fs

structure PowSpec (b p e : Expr) : Prop where
  canonical : Canonical e
  mass_le_spread : IsInteger p → mass e ≤ spreadMass b
  mass_le : ¬IsInteger p → mass e ≤ mass b + mass p + 2

/-- The function sums lists for which `n` steps suffice. -/
def SumsWithin (n : Nat) (f : List Expr → Option Expr) : Prop :=
  ∀ ts, (∀ t ∈ ts, Canonical t) → 2 * masses ts + 2 ≤ n → ∃ e, f ts = some e ∧ SumSpec ts e

def MultipliesWithin (n : Nat) (f : List Expr → Option Expr) : Prop :=
  ∀ fs, (∀ f ∈ fs, Canonical f) → 2 * masses fs + 1 ≤ n → ∃ e, f fs = some e ∧ ProductSpec fs e

def RaisesWithin (n : Nat) (f : Expr → Expr → Option Expr) : Prop :=
  ∀ b p, Canonical b → Canonical p → spreadSteps b ≤ n → ∃ e, f b p = some e ∧ PowSpec b p e

/-! What the constructors put together. -/

theorem isConst_of_mem_nonConstants {e : Expr} {es : List Expr} (h : e ∈ nonConstants es) :
    e.isConst = false := (mem_nonConstants.1 h).2

theorem canonical_finish {unit c : Rat} {node : List Expr → Expr} {nested : Expr → Bool}
    {folded : List Rat} {kept : List Expr}
    (hnode : ∀ es, OperandsShape nested folded es → (∀ e ∈ es, Canonical e) → Canonical (node es))
    (hnested : nested (const c) = false)
    (hkept : ∀ e ∈ kept, Canonical e ∧ e.isConst = false ∧ nested e = false)
    (hc : c = unit ∨ c ∉ folded) : Canonical (finish unit node (withConst unit c kept)) := by
  have hk : constants kept = [] := constants_eq_nil fun e he => (hkept e he).2.1
  -- the constant that is added is the only one, as none was kept
  have hall : ∀ e ∈ withConst unit c kept, Canonical e ∧ nested e = false := by
    intro e he
    rw [withConst] at he
    split at he
    · exact ⟨(hkept e he).1, (hkept e he).2.2⟩
    · rcases List.mem_append.1 he with he | he
      · exact ⟨(hkept e he).1, (hkept e he).2.2⟩
      · rw [List.mem_singleton.1 he]
        exact ⟨.const c, hnested⟩
  have hconst : constants (withConst unit c kept) = [] ∨
      constants (withConst unit c kept) = [c] ∧ c ∉ folded := by
    rw [withConst]
    split
    · exact .inl hk
    · next hu =>
      refine .inr ⟨?_, hc.resolve_left hu⟩
      rw [constants_append, hk]
      rfl
  generalize withConst unit c kept = all at hall hconst
  unfold finish
  split
  · exact .const unit
  · exact (hall _ List.mem_cons_self).1.copied
  · next h0 h1 =>
    have hp := sorted_perm all
    have hcp : (constants (sorted all)).Perm (constants all) := hp.filterMap _
    refine hnode _ ⟨?_, ?_, ?_, ?_, sorted_ascending all⟩ ?_
    · rw [hp.length_eq]
      cases all with
      | nil => exact absurd rfl h0
      | cons e es =>
        cases es with
        | nil => exact absurd rfl (h1 e)
        | cons d ds => simp
    · exact fun e he => (hall e (hp.mem_iff.1 he)).2
    · rw [hcp.length_eq]
      rcases hconst with h | ⟨h, -⟩ <;> simp [h]
    · intro d hd
      have hd := hcp.mem_iff.1 hd
      rcases hconst with h | ⟨h, hf⟩
      · simp [h] at hd
      · rw [h, List.mem_singleton] at hd
        exact hd ▸ hf
    · exact fun e he => (hall e (hp.mem_iff.1 he)).1

theorem mass_finish (unit : Rat) (node : List Expr → Expr)
    (hnode : ∀ es, mass (node es) = masses es) (all : List Expr) :
    mass (finish unit node all) ≤ max 1 (masses all) := by
  unfold finish
  split
  · rw [mass]
    omega
  · rw [masses_singleton, mass_copied]
    omega
  · rw [hnode, masses_perm (sorted_perm all)]
    omega

/-- The constant at the end weighs no more than the constants it is made of. -/
theorem masses_withConst {unit c : Rat} {cs : List Rat} (h : cs = [] → c = unit)
    (es : List Expr) : masses (withConst unit c es) ≤ masses es + cs.length ∧
      (cs ≠ [] → c = unit → masses (withConst unit c es) < masses es + cs.length) := by
  have hlen : cs ≠ [] → 1 ≤ cs.length := List.length_pos_iff.2
  rw [withConst]
  split
  · exact ⟨by omega, fun h0 _ => by have := hlen h0; omega⟩
  · next hc =>
    have := hlen fun h0 => hc (h h0)
    have hm : masses [const c] = 1 := rfl
    rw [masses_append, hm]
    exact ⟨by omega, fun _ hu => absurd hu hc⟩

theorem canonical_withConst {unit c : Rat} {es : List Expr} (h : ∀ e ∈ es, Canonical e) :
    ∀ e ∈ withConst unit c es, Canonical e :=
  forall_withConst h (.const c)

theorem four_le_masses {es : List Expr} (hes : ∀ e ∈ es, Canonical e) (h : nonConstants es ≠ []) :
    4 ≤ masses es := by
  obtain ⟨e, he⟩ := List.exists_mem_of_ne_nil _ h
  obtain ⟨he, hc⟩ := mem_nonConstants.1 he
  have := mass_le_masses he
  have := (hes e he).four_le_mass hc
  omega

theorem ne_nil_of_not_apart {α : Type} {split : Expr → Expr × α} {es : List Expr}
    (h : ¬Apart split es) : es ≠ [] := by
  rintro rfl
  exact h List.Pairwise.nil

/-! What the groups give way to. -/

/-- A group gives way to nothing or to a canonical expression, which weighs no more. If it weighs as
much, the group is of one element, and `Kept` holds. -/
structure GroupSpec {α : Type} (weight : Group α → Nat) (Kept : Group α → Option Expr → Prop)
    (g : Group α) (r : Option Expr) : Prop where
  canonical : ∀ e, r = some e → Canonical e
  mass_le : r.elim 0 mass ≤ weight g
  kept : r.elim 0 mass = weight g → g.parts.length = 1 ∧ Kept g r

theorem GroupSpec.of_lt {α : Type} {weight : Group α → Nat} {Kept : Group α → Option Expr → Prop}
    {g : Group α} {r : Option Expr} (hc : ∀ e, r = some e → Canonical e)
    (hlt : r.elim 0 mass < weight g) : GroupSpec weight Kept g r :=
  ⟨hc, hlt.le, fun h => absurd h hlt.ne⟩

/-- The groups of a list give way to expressions that together weigh no more than the list. If they
weigh as much, nothing was merged. -/
theorem exists_mergedGroups {α : Type} {split : Expr → Expr × α} {es : List Expr}
    {f : Group α → Option (Option Expr)} {weight : Group α → Nat}
    {Kept : Group α → Option Expr → Prop}
    (hsum : ((groupAll split es).map weight).sum = masses es)
    (h : ∀ g ∈ groupAll split es, ∃ r, f g = some r ∧ GroupSpec weight Kept g r) :
    ∃ merged, (groupAll split es).mapM f = some merged ∧
      (∀ e ∈ merged.filterMap id, Canonical e) ∧ masses (merged.filterMap id) ≤ masses es ∧
        (masses (merged.filterMap id) = masses es →
          Apart split es ∧ List.Forall₂ Kept (groupAll split es) merged) := by
  obtain ⟨merged, hm, hr⟩ := exists_mapM h
  have hmass : masses (merged.filterMap id) = (merged.map fun r => r.elim 0 mass).sum := by
    rw [masses_eq_sum, sum_map_filterMap_id]
  refine ⟨merged, hm, fun e he => ?_, ?_, fun heq => ?_⟩
  · obtain ⟨r, hmem, rfl⟩ := List.mem_filterMap.1 he
    obtain ⟨g, _, hg⟩ := exists_of_forall₂_mem hr _ hmem
    exact hg.canonical e rfl
  · rw [hmass, ← hsum]
    exact sum_le_of_forall₂ hr fun _ _ h => h.mass_le
  · -- no group weighs less, so none has lost mass
    have hall := forall₂_eq_of_sum_le hr (fun _ _ h => h.mass_le) (by rw [hsum, ← hmass, heq])
    have hkept := hall.imp fun g r h => h.1.kept h.2
    refine ⟨(apart_iff es).2 fun g hg => ?_, hkept.imp fun _ _ h => h.2⟩
    obtain ⟨r, _, hone, _⟩ := exists_of_forall₂_mem hkept.flip g hg
    exact hone

/-! What is left is put together, or the constructor starts over. -/

/-- What is left is put together if nothing in it is a constant or is to be opened. -/
theorem any_again_eq_false {nested : Expr → Bool} {kept : List Expr} :
    (kept.any fun e => nested e || e.isConst) = false ↔
      ∀ e ∈ kept, e.isConst = false ∧ nested e = false := by
  simp [List.any_eq_false, and_comm]

/-- The constructor starts over only if one of the expressions that are left is a constant or is to
be opened. -/
theorem finish_or_again {unit c : Rat} {node : List Expr → Expr} {nested : Expr → Bool}
    {folded : List Rat} {kept : List Expr} {again : List Expr → Option Expr}
    (hnode : ∀ es, OperandsShape nested folded es → (∀ e ∈ es, Canonical e) → Canonical (node es))
    (hmass : ∀ es, mass (node es) = masses es) (hnested : nested (const c) = false)
    (hc : c = unit ∨ c ∉ folded) (hkept : ∀ e ∈ kept, Canonical e)
    (ha : ¬(∀ e ∈ kept, e.isConst = false ∧ nested e = false) →
      ∃ e, again (withConst unit c kept) = some e ∧ Canonical e ∧
        mass e ≤ max 1 (masses (withConst unit c kept))) :
    ∃ e, (if kept.any fun e => nested e || e.isConst then again (withConst unit c kept)
        else some (finish unit node (withConst unit c kept))) = some e ∧
      Canonical e ∧ mass e ≤ max 1 (masses (withConst unit c kept)) ∧
        ((∀ e ∈ kept, e.isConst = false ∧ nested e = false) →
          e = finish unit node (withConst unit c kept)) := by
  by_cases hk : ∀ e ∈ kept, e.isConst = false ∧ nested e = false
  · rw [any_again_eq_false.2 hk, if_neg Bool.false_ne_true]
    refine ⟨_, rfl, ?_, mass_finish unit node hmass _, fun _ => rfl⟩
    exact canonical_finish hnode hnested (fun e he => ⟨hkept e he, hk e he⟩) hc
  · obtain ⟨e, he, hec, hem⟩ := ha hk
    rw [if_pos (Bool.not_eq_false _ ▸ mt any_again_eq_false.1 hk)]
    exact ⟨e, he, hec, hem, fun h => absurd h hk⟩

end Symbolic.Expr
