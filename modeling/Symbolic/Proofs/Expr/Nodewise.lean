import Symbolic.Proofs.Expr.Closed
import Symbolic.Proofs.Expr.Groups
import Symbolic.Proofs.Expr.Order
import Symbolic.Proofs.Expr.Parts

/-!
What is seen at the leaves. The constructors take their operands apart and put the parts together in
new sums, products and powers, but all the leaves and functions they put in are constants. So a
property that looks through the nodes (`Nodewise`) is kept by the constructors, whatever they merge.

Of exponents something else may be asked than of bases (`NodewiseOver`). Then the property is kept if
sums and products of such exponents are such exponents again.
-/

namespace Symbolic

open Symbolic.Expr

/-- The property looks through sums, products, powers and primitives, and constants have it. -/
structure Nodewise (P : Expr → Prop) : Prop where
  const : ∀ c, P (.const c)
  site : ∀ {s k l}, P (.var s k) → P (.var s l)
  sum : ∀ {es}, P (.sum es) ↔ ∀ e ∈ es, P e
  product : ∀ {es}, P (.product es) ↔ ∀ e ∈ es, P e
  pow : ∀ {b p}, P (.pow b p) ↔ P b ∧ P p
  apply : ∀ {f e}, P (.apply f e) ↔ P e

/-- The property looks through sums, products and the bases of powers, and constants have it; of
exponents `Q` is asked. -/
structure NodewiseOver (Q P : Expr → Prop) : Prop where
  const : ∀ c, P (.const c)
  site : ∀ {s k l}, P (.var s k) → P (.var s l)
  sum : ∀ {es}, P (.sum es) ↔ ∀ e ∈ es, P e
  product : ∀ {es}, P (.product es) ↔ ∀ e ∈ es, P e
  pow : ∀ {b p}, P (.pow b p) ↔ P b ∧ Q p
  one : Q (.const 1)

/-- The function keeps the property. -/
def ListKeeps (P : Expr → Prop) (f : List Expr → Option Expr) : Prop :=
  ∀ {es e}, (∀ d ∈ es, P d) → f es = some e → P e

/-- The function of base and power keeps the property of the base. -/
def PowKeeps (Q P : Expr → Prop) (f : Expr → Expr → Option Expr) : Prop :=
  ∀ {b p e}, P b → Q p → f b p = some e → P e

/-- The constructors keep the property, within any number of steps. -/
def WithinKeeps (Q P : Expr → Prop) : Prop :=
  ∀ n, ListKeeps P (sumWithin n) ∧ ListKeeps P (productWithin n) ∧ PowKeeps Q P (powWithin n)

namespace NodewiseOver

variable {Q P : Expr → Prop} {es : List Expr}

/-! Parts of what has the property have it. -/

theorem terms (h : NodewiseOver Q P) {e : Expr} (he : P e) : ∀ t ∈ e.terms, P t := by
  cases e with
  | sum ts => exact h.sum.1 he
  | _ => exact List.forall_mem_singleton.2 he

theorem factors (h : NodewiseOver Q P) {e : Expr} (he : P e) : ∀ f ∈ e.factors, P f := by
  cases e with
  | product fs => exact h.product.1 he
  | _ => exact List.forall_mem_singleton.2 he

theorem flatMap {f : Expr → List Expr} (hf : ∀ e, P e → ∀ d ∈ f e, P d) (hes : ∀ e ∈ es, P e) :
    ∀ d ∈ nonConstants (es.flatMap f), P d := by
  intro d hd
  obtain ⟨e, he, hde⟩ := List.mem_flatMap.1 (mem_nonConstants.1 hd).1
  exact hf e (hes e he) d hde

theorem bareProduct (h : NodewiseOver Q P) (hes : ∀ e ∈ es, P e) : P (bareProduct es) := by
  unfold Expr.bareProduct
  split
  · exact hes _ List.mem_cons_self
  · exact h.product.2 hes

theorem asMultiple (h : NodewiseOver Q P) {e : Expr} (he : P e) : P (asMultiple e).1 := by
  unfold Expr.asMultiple
  split
  · split
    · next ht =>
      refine h.bareProduct fun f hf => h.product.1 he f ?_
      exact (perm_of_takeConst? ht).mem_iff.2 (List.mem_cons_of_mem _ hf)
    · exact he
  · exact he

theorem asPower (h : NodewiseOver Q P) {e : Expr} (he : P e) : P (asPower e).1 ∧ Q (asPower e).2 := by
  unfold Expr.asPower
  split
  · split
    · exact ⟨he, h.one⟩
    · exact h.pow.1 he
  · exact ⟨he, h.one⟩

/-! What is put together of parts that have the property has it. -/

theorem copied (h : NodewiseOver Q P) {e : Expr} (he : P e) : P e.copied :=
  copied_of (fun _ _ => h.site) he

theorem finish {unit : Rat} {node : List Expr → Expr} (h : NodewiseOver Q P)
    (hnode : ∀ es, (∀ e ∈ es, P e) → P (node es)) (hes : ∀ e ∈ es, P e) :
    P (finish unit node es) := by
  unfold Expr.finish
  split
  · exact h.const unit
  · exact h.copied (hes _ List.mem_cons_self)
  · exact hnode _ fun e he => hes e ((sorted_perm _).mem_iff.1 he)

section Bodies

variable {sum product again : List Expr → Option Expr} {pow : Expr → Expr → Option Expr} {e : Expr}

theorem mapM_groups {α : Type} {split : Expr → Expr × α} {f : Expr.Group α → Option (Option Expr)}
    (hf : ∀ g ∈ groupAll split es, ∀ {d}, f g = some (some d) → P d) {merged : List (Option Expr)}
    (hm : (gather split es).mapM f = some merged) : ∀ d ∈ merged.filterMap id, P d := by
  rw [gather_eq_groupAll] at hm
  exact forall_mem_of_mapM hm hf

/-- The end of a body: what is left is put together, or the constructor starts over. -/
theorem finish_or_again (h : NodewiseOver Q P) {unit c : Rat} {node : List Expr → Expr}
    {test : Bool} {kept : List Expr} (hnode : ∀ es, (∀ e ∈ es, P e) → P (node es))
    (ha : ListKeeps P again)
    (hk : ∀ d ∈ kept, P d)
    (he : (if test then again (withConst unit c kept)
      else some (Expr.finish unit node (withConst unit c kept))) = some e) : P e := by
  have hall : ∀ d ∈ withConst unit c kept, P d := forall_withConst hk (h.const c)
  split at he
  · exact ha hall he
  · cases he
    exact h.finish hnode hall

theorem sumBody (h : NodewiseOver Q P) (hp : ListKeeps P product) (ha : ListKeeps P again) :
    ListKeeps P (sumBody product again) := by
  intro es e hes he
  have hopen := flatMap (fun e he => h.terms he) hes
  simp only [Expr.sumBody, Option.bind_eq_bind, Option.bind_eq_some_iff] at he
  obtain ⟨merged, hm, he⟩ := he
  refine h.finish_or_again (fun _ => h.sum.2) ha (mapM_groups (fun g hg d hd => ?_) hm) he
  obtain ⟨hf, hb, -⟩ := groupAll_first hg
  have hbase : P g.base := hb ▸ h.asMultiple (hopen _ hf)
  simp only [likeTerm] at hd
  split at hd
  · cases hd
  split at hd
  · cases hd
    exact hbase
  · obtain ⟨x, hx, hxd⟩ := Option.map_eq_some_iff.1 hd
    cases hxd
    exact hp (Closed.forall_pair (h.const _) hbase) hx

theorem productBody (h : NodewiseOver Q P) (hs : ListKeeps Q sum) (ha : ListKeeps P again)
    (hw : PowKeeps Q P pow) : ListKeeps P (productBody sum again pow) := by
  intro es e hes he
  have hopen := flatMap (fun e he => h.factors he) hes
  simp only [Expr.productBody] at he
  split at he
  · cases he
    exact h.const 0
  simp only [Option.bind_eq_bind, Option.bind_eq_some_iff] at he
  obtain ⟨merged, hm, he⟩ := he
  refine h.finish_or_again (fun _ => h.product.2) ha (mapM_groups (fun g hg d hd => ?_) hm) he
  obtain ⟨hf, hb, -⟩ := groupAll_first hg
  have hbase : P g.base := hb ▸ (h.asPower (hopen _ hf)).1
  have hparts : ∀ p ∈ g.parts, Q p := by
    intro p hp
    obtain ⟨x, hx, rfl, -⟩ := groupAll_parts hg p hp
    exact (h.asPower (hopen x hx)).2
  rw [likePower] at hd
  split at hd
  · cases hd
    exact hopen _ hf
  obtain ⟨p, hp, hd⟩ := Option.bind_eq_some_iff.1 hd
  have hpow : Q p := hs hparts hp
  split at hd
  · split at hd
    · cases hd
    split at hd
    · cases hd
      exact hbase
    · obtain ⟨x, hx, hxd⟩ := Option.map_eq_some_iff.1 hd
      cases hxd
      exact hw hbase hpow hx
  · obtain ⟨x, hx, hxd⟩ := Option.map_eq_some_iff.1 hd
    cases hxd
    exact hw hbase hpow hx

theorem barePow (h : NodewiseOver Q P) {b p : Expr} (hb : P b) (hp : Q p) : P (barePow b p) := by
  unfold Expr.barePow
  split
  · split
    · exact h.const 1
    · exact h.pow.2 ⟨hb, hp⟩
  · exact h.pow.2 ⟨hb, hp⟩

theorem powBody (h : NodewiseOver Q P) (hq : ListKeeps Q product) (hp : ListKeeps P product)
    (hw : PowKeeps Q P pow) : PowKeeps Q P (powBody product pow) := by
  intro b p e hb hpp he
  unfold Expr.powBody at he
  split at he
  · split at he
    · cases he
      exact h.const 1
    split at he
    · cases he
      exact h.copied hb
    split at he
    · cases he
      exact h.const _
    split at he
    · split at he
      · obtain ⟨m, hm, he⟩ := Option.bind_eq_some_iff.1 he
        obtain ⟨hb, hq'⟩ := h.pow.1 hb
        exact hw hb (hq (Closed.forall_pair hq' hpp) hm) he
      · obtain ⟨fs, hfs, he⟩ := Option.bind_eq_some_iff.1 he
        refine hp (fun f hf => ?_) he
        obtain ⟨d, hd, hdf⟩ := exists_of_forall₂_mem (forall₂_of_mapM hfs) f hf
        exact hw (h.product.1 hb d hd) hpp hdf
      · cases he
        exact h.barePow hb hpp
    · cases he
      exact h.barePow hb hpp
  · cases he
    exact h.barePow hb hpp

end Bodies

/-- The constructors keep the property if sums and products of exponents are exponents. -/
theorem within (h : NodewiseOver Q P)
    (hq : ∀ n, ListKeeps Q (sumWithin n) ∧ ListKeeps Q (productWithin n)) : WithinKeeps Q P := by
  intro n
  induction n with
  | zero =>
    refine ⟨?_, ?_, ?_⟩
    · intro es e _ he
      cases he
    · intro es e _ he
      cases he
    · intro b p e _ _ he
      cases he
  | succ n ih =>
    obtain ⟨hs, hp, hw⟩ := ih
    obtain ⟨hqs, hqp⟩ := hq n
    exact ⟨h.sumBody hp hs, h.productBody hqs hp hw, h.powBody hqp hp hw⟩

section Constructors

variable (h : NodewiseOver Q P) (hw : WithinKeeps Q P)
include h hw

theorem sumOf (hes : ∀ e ∈ es, P e) : P (sumOf es) := by
  rw [sumOf_eq]
  cases he : sumWithin (steps (weights es)) es with
  | none => exact h.sum.2 hes
  | some e => exact (hw _).1 hes he

theorem productOf (hes : ∀ e ∈ es, P e) : P (productOf es) := by
  rw [productOf_eq]
  cases he : productWithin (steps (weights es)) es with
  | none => exact h.product.2 hes
  | some e => exact (hw _).2.1 hes he

theorem powOf {b p : Expr} (hb : P b) (hp : Q p) : P (powOf b p) := by
  rw [powOf_eq]
  cases he : powWithin (steps (weight b + weight p)) b p with
  | none => exact h.pow.2 ⟨hb, hp⟩
  | some e => exact (hw _).2.2 hb hp he

end Constructors

end NodewiseOver

namespace Nodewise

variable {P : Expr → Prop} {es : List Expr}

theorem nodewiseOver (h : Nodewise P) : NodewiseOver P P where
  const := h.const
  site := h.site
  sum := h.sum
  product := h.product
  pow := h.pow
  one := h.const 1

theorem copied (h : Nodewise P) {e : Expr} (he : P e) : P e.copied := h.nodewiseOver.copied he

theorem within (h : Nodewise P) : WithinKeeps P P := by
  intro n
  induction n with
  | zero =>
    refine ⟨?_, ?_, ?_⟩
    · intro es e _ he
      cases he
    · intro es e _ he
      cases he
    · intro b p e _ _ he
      cases he
  | succ n ih =>
    obtain ⟨hs, hp, hw⟩ := ih
    have hover := h.nodewiseOver
    exact ⟨hover.sumBody hp hs, hover.productBody hs hp hw, hover.powBody hp hp hw⟩

theorem sumOf (h : Nodewise P) (hes : ∀ e ∈ es, P e) : P (sumOf es) :=
  h.nodewiseOver.sumOf h.within hes

theorem productOf (h : Nodewise P) (hes : ∀ e ∈ es, P e) : P (productOf es) :=
  h.nodewiseOver.productOf h.within hes

theorem powOf (h : Nodewise P) {b p : Expr} (hb : P b) (hp : P p) : P (powOf b p) :=
  h.nodewiseOver.powOf h.within hb hp

theorem applyOf (h : Nodewise P) (f : Primitive) {e : Expr} (he : P e) : P (applyOf f e) := by
  unfold Expr.applyOf
  split
  · split
    · exact h.const 0
    · exact h.apply.2 he
  · exact h.const _
  · exact he
  · split
    · exact h.const 0
    · exact h.apply.2 he
  · exact h.apply.2 he

theorem and {Q : Expr → Prop} (h : Nodewise P) (h' : Nodewise Q) :
    Nodewise fun e => P e ∧ Q e where
  const c := ⟨h.const c, h'.const c⟩
  site hv := ⟨h.site hv.1, h'.site hv.2⟩
  sum := by
    intro es
    rw [h.sum, h'.sum]
    exact forall₂_and.symm
  product := by
    intro es
    rw [h.product, h'.product]
    exact forall₂_and.symm
  pow := by
    intro b p
    rw [h.pow, h'.pow]
    exact and_and_and_comm
  apply := by
    intro f e
    rw [h.apply, h'.apply]

/-- What a property has to do with variables and calls, that the operations keep it. -/
theorem kept (h : Nodewise P) (hvar : ∀ s k, P (.var s k))
    (hcall : ∀ {f ps b as es}, P (.call f ps b as) → es.length = ps.length → (∀ e ∈ es, P e) →
      P (.call f ps b es))
    (hargs : ∀ {f ps b es}, P (.call f ps b es) → ∀ e ∈ es, P e)
    (hbody : ∀ {f ps b es}, P (.call f ps b es) → es.length = ps.length ∧ P b) : Kept P where
  const := h.const
  var := hvar
  sum := h.sumOf
  product := h.productOf
  pow := h.powOf
  apply f _ he := h.applyOf f he
  callAgain := hcall
  operands {e} he := by
    cases e with
    | const c => exact List.forall_mem_nil _
    | var s k => exact List.forall_mem_nil _
    | sum es => exact h.sum.1 he
    | product es => exact h.product.1 he
    | pow b p => exact Closed.forall_pair (h.pow.1 he).1 (h.pow.1 he).2
    | apply f e => exact List.forall_mem_singleton.2 (h.apply.1 he)
    | call f ps b es => exact hargs he
  body := hbody

end Nodewise

end Symbolic
