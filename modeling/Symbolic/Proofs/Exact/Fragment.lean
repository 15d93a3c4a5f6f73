import Mathlib.Algebra.BigOperators.Ring.Finset
import Mathlib.Data.Set.List
import Symbolic.Proofs.Exact.Value
import Symbolic.Proofs.Expr.Nodewise

/-!
The constructors keep integer powers. The exponents of like powers are added up by the sum of a list
of constants, and those of a power of a power are multiplied; the results have to be constants and
not only to have the value of one, which is said apart (`FoldsConstants`). So the constructors keep
what looks through nodes and asks of exponents that they are integers (`IntegerPowered`), and stay in
the fragment.
-/

namespace Symbolic.Expr

/-- A list of constants becomes a constant. -/
def FoldsConstants (op : List Rat → Rat) (f : List Expr → Option Expr) : Prop :=
  ∀ cs e, f (cs.map const) = some e → e = const (op cs)

theorem sumBody_foldsConstants (product again : List Expr → Option Expr) :
    FoldsConstants List.sum (sumBody product again) := by
  intro cs e he
  have hflat : (cs.map const).flatMap terms = cs.map const := by
    rw [List.flatMap_map]
    exact List.map_eq_flatMap.symm
  simp only [sumBody, hflat, nonConstants_map_const, constants_map_const, foldr_add] at he
  -- nothing but constants: there are no groups
  simp only [gather, groupAll, List.length_nil, Nat.zero_le, if_true, List.foldl_nil,
    List.mapM_nil, Option.pure_def, Option.bind_eq_bind, Option.bind_some, List.filterMap_nil,
    List.any_nil, Bool.false_eq_true, if_false, Option.some.injEq] at he
  by_cases hc : cs.sum = 0
  · rw [← he, withConst, if_pos hc, hc]
    rfl
  · rw [← he, withConst, if_neg hc]
    rfl

theorem productBody_foldsConstants (sum again : List Expr → Option Expr)
    (pow : Expr → Expr → Option Expr) :
    FoldsConstants List.prod (productBody sum again pow) := by
  intro cs e he
  have hflat : (cs.map const).flatMap factors = cs.map const := by
    rw [List.flatMap_map]
    exact List.map_eq_flatMap.symm
  simp only [productBody, hflat, nonConstants_map_const, constants_map_const, foldr_mul] at he
  split at he
  · next hz => rw [← Option.some.inj he, hz]
  -- nothing but constants: there are no groups
  simp only [gather, groupAll, List.length_nil, Nat.zero_le, if_true, List.foldl_nil,
    List.mapM_nil, Option.pure_def, Option.bind_eq_bind, Option.bind_some, List.filterMap_nil,
    List.any_nil, Bool.false_eq_true, if_false, Option.some.injEq] at he
  by_cases hc : cs.prod = 1
  · rw [← he, withConst, if_pos hc, hc]
    rfl
  · rw [← he, withConst, if_neg hc]
    rfl

theorem foldsConstants_within (n : Nat) :
    FoldsConstants List.sum (sumWithin n) ∧ FoldsConstants List.prod (productWithin n) := by
  cases n with
  | zero =>
    constructor
    · intro cs e he
      cases he
    · intro cs e he
      cases he
  | succ n => exact ⟨sumBody_foldsConstants _ _, productBody_foldsConstants _ _ _⟩

/-! Integer powers. -/

def IntegerConst (p : Expr) : Prop := ∃ n : Int, p = const n

/-- The property looks through sums, products and the bases of powers, whose exponents are integers. -/
abbrev IntegerPowered (P : Expr → Prop) : Prop := NodewiseOver IntegerConst P

theorem FoldsConstants.integerConst {op : List Rat → Rat} {f : List Expr → Option Expr}
    (h : FoldsConstants op f) (hop : ∀ ns : List Int, ∃ n : Int, op (ns.map (↑)) = n) :
    ListKeeps IntegerConst f := by
  intro ps e hps he
  obtain ⟨ns, rfl⟩ : ps ∈ Set.range (List.map (const ∘ ((↑) : Int → Rat))) := by
    rw [Set.range_list_map]
    exact fun p hp => (hps p hp).imp fun _ h => h.symm
  rw [← List.map_map] at he
  obtain ⟨n, hn⟩ := hop ns
  exact ⟨n, (h _ e he).trans (congrArg const hn)⟩

namespace IntegerPowered

variable {P : Expr → Prop} (h : IntegerPowered P)
include h

theorem within : WithinKeeps IntegerConst P := by
  refine NodewiseOver.within h fun n => ?_
  obtain ⟨hs, hp⟩ := foldsConstants_within n
  exact ⟨hs.integerConst fun ns => ⟨_, (Int.cast_list_sum ns).symm⟩,
    hp.integerConst fun ns => ⟨_, (Int.cast_list_prod ns).symm⟩⟩

theorem sumOf {es : List Expr} (hes : ∀ e ∈ es, P e) : P (sumOf es) :=
  NodewiseOver.sumOf h (within h) hes

theorem productOf {es : List Expr} (hes : ∀ e ∈ es, P e) : P (productOf es) :=
  NodewiseOver.productOf h (within h) hes

theorem powOf {b : Expr} (hb : P b) (n : Int) : P (powOf b (const n)) :=
  NodewiseOver.powOf h (within h) hb ⟨n, rfl⟩

end IntegerPowered

/-! The fragment. -/

theorem integerPowered_integerPowers : IntegerPowered IntegerPowers where
  const := .const
  site _ := .var _ _
  sum := ⟨fun h => by cases h; assumption, .sum⟩
  product := ⟨fun h => by cases h; assumption, .product⟩
  pow := by
    intro b p
    constructor
    · rintro (_ | _ | _ | _ | ⟨n, hb⟩)
      exact ⟨hb, n, rfl⟩
    · rintro ⟨hb, n, rfl⟩
      exact .pow n hb
  one := ⟨1, rfl⟩

theorem integerPowers_sumOf {es : List Expr} (h : ∀ e ∈ es, IntegerPowers e) :
    IntegerPowers (sumOf es) :=
  IntegerPowered.sumOf integerPowered_integerPowers h

theorem integerPowers_productOf {es : List Expr} (h : ∀ e ∈ es, IntegerPowers e) :
    IntegerPowers (productOf es) :=
  IntegerPowered.productOf integerPowered_integerPowers h

theorem integerPowers_powOf {b : Expr} (h : IntegerPowers b) (n : Int) :
    IntegerPowers (powOf b (const n)) :=
  IntegerPowered.powOf integerPowered_integerPowers h n

theorem integerPowers_applyOf (f : Primitive) {e : Expr} (h : IntegerPowers e) :
    IntegerPowers (applyOf f e) := by
  unfold applyOf
  split
  · split
    · exact .const 0
    · exact .apply _ h
  · exact .const _
  · exact h
  · split
    · exact .const 0
    · exact .apply _ h
  · exact .apply _ h

end Symbolic.Expr
