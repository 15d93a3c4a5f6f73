import Symbolic.Proofs.Expr.Order
import Symbolic.Proofs.Expr.Parts

/-!
Canonical form as a property of trees, said without the constructors: `Canonical e` says of every
node of `e`, and of the bodies of the functions it calls, what may stand under it.

Sums and products differ only in what is opened under them and in the constants that are folded
away; `OperandsShape` has both as parameters.
-/

namespace Symbolic.Expr

def isPow : Expr → Bool
  | pow _ _ => true
  | _ => false

/-- The operands of a sum or product: two at least, none of them nested, one constant at most and
none that is folded away, in order. -/
structure OperandsShape (nested : Expr → Bool) (folded : List Rat) (es : List Expr) : Prop where
  two_le : 2 ≤ es.length
  opened : ∀ e ∈ es, nested e = false
  one_const : (constants es).length ≤ 1
  kept : ∀ c ∈ constants es, c ∉ folded
  ascending : Ascending es

abbrev SumShape (es : List Expr) : Prop := OperandsShape isSum [0] es

abbrev ProductShape (es : List Expr) : Prop := OperandsShape isProduct [0, 1] es

/-- Base and power: nothing that folds, and no integer power of a power or of a product. -/
structure PowShape (b p : Expr) : Prop where
  power_ne_zero : p ≠ const 0
  power_ne_one : p ≠ const 1
  base_ne_one : b ≠ const 1
  not_spread : ∀ c : Rat, p = const c → c.den = 1 → b.isPow = false ∧ b.isProduct = false
  not_folded : ∀ x c : Rat, b = const x → p = const c →
    ¬(x = 0 ∧ 0 ≤ c) ∧ Rational.exactPower? x c = none

/-- The argument of a primitive: none at which it folds. -/
structure ApplyShape (f : Primitive) (e : Expr) : Prop where
  ln_ne : f = .ln → e ≠ const 1
  zero_ne : f = .sin ∨ f = .arcsin ∨ f = .arctan → e ≠ const 0
  sign_const : f = .sign → e.isConst = false
  sign_sign : f = .sign → ∀ d, e ≠ apply .sign d

/-- Every node has its shape, those of the bodies of functions too, and calls have as many
arguments as there are parameters. -/
inductive Canonical : Expr → Prop where
  | const (c : Rat) : Canonical (const c)
  | var (s : Symbol) (k : Site) : Canonical (var s k)
  | sum {es : List Expr} : SumShape es → (∀ e ∈ es, Canonical e) → Canonical (sum es)
  | product {es : List Expr} : ProductShape es → (∀ e ∈ es, Canonical e) → Canonical (product es)
  | pow {b p : Expr} : PowShape b p → Canonical b → Canonical p → Canonical (pow b p)
  | apply {f : Primitive} {e : Expr} : ApplyShape f e → Canonical e → Canonical (apply f e)
  | call {f : String} {ps : List Symbol} {b : Expr} {es : List Expr} : es.length = ps.length →
      Canonical b → (∀ e ∈ es, Canonical e) → Canonical (call f ps b es)

namespace Canonical

theorem copied {e : Expr} (h : Canonical e) : Canonical e.copied :=
  copied_of (fun s k _ => .var s k.next) h

theorem terms {e : Expr} (h : Canonical e) : ∀ t ∈ e.terms, Canonical t ∧ t.isSum = false := by
  cases h with
  | sum hs hes => exact fun t ht => ⟨hes t ht, hs.opened t ht⟩
  | _ =>
    intro t ht
    rw [List.mem_singleton.1 ht]
    exact ⟨by constructor <;> assumption, rfl⟩

theorem factors {e : Expr} (h : Canonical e) :
    ∀ f ∈ e.factors, Canonical f ∧ f.isProduct = false := by
  cases h with
  | product hs hes => exact fun t ht => ⟨hes t ht, hs.opened t ht⟩
  | _ =>
    intro t ht
    rw [List.mem_singleton.1 ht]
    exact ⟨by constructor <;> assumption, rfl⟩

theorem operands {e : Expr} (h : Canonical e) : ∀ d ∈ e.operands, Canonical d := by
  cases h with
  | const c => intro d hd; cases hd
  | var s k => intro d hd; cases hd
  | sum _ hes => exact hes
  | product _ hes => exact hes
  | pow _ hb hp =>
    intro d hd
    rcases List.mem_pair.1 hd with rfl | rfl
    · exact hb
    · exact hp
  | apply _ he =>
    intro d hd
    rw [List.mem_singleton.1 hd]
    exact he
  | call _ _ hes => exact hes

theorem sum_shape {es : List Expr} (h : Canonical (.sum es)) : SumShape es := by
  cases h
  assumption

theorem product_shape {es : List Expr} (h : Canonical (.product es)) : ProductShape es := by
  cases h
  assumption

theorem pow_shape {b p : Expr} (h : Canonical (.pow b p)) : PowShape b p := by
  cases h
  assumption

end Canonical

theorem order_const_right {e : Expr} (h : e.isConst = false) (c : Rat) :
    order e (const c) = .gt := by
  cases e with
  | const d => cases h
  | _ => rfl

theorem constants_first {es : List Expr} (h : Ascending es) :
    es = (constants es).map const ++ nonConstants es := by
  induction es with
  | nil => rfl
  | cons e es ih =>
    obtain ⟨he, hes⟩ := List.pairwise_cons.1 h
    by_cases hc : e.isConst = true
    · obtain ⟨c, rfl⟩ := isConst_eq_true.1 hc
      exact congrArg (const c :: ·) (ih hes)
    · -- no constant follows
      have hc : e.isConst = false := Bool.not_eq_true _ ▸ hc
      have hn : ∀ d ∈ e :: es, d.isConst = false := by
        refine List.forall_mem_cons.2 ⟨hc, fun d hd => Bool.not_eq_true _ ▸ fun h => ?_⟩
        obtain ⟨c, rfl⟩ := isConst_eq_true.1 h
        exact he _ hd (order_const_right hc c)
      rw [constants_eq_nil hn, nonConstants_eq_self hn]
      rfl

theorem sorted_concat_const {es : List Expr} (h : ∀ e ∈ es, e.isConst = false) (c : Rat) :
    sorted (es ++ [const c]) = const c :: sorted es := by
  induction es with
  | nil => rfl
  | cons e es ih =>
    obtain ⟨he, hes⟩ := List.forall_mem_cons.1 h
    have hi : sorted (e :: es) = insert e (sorted es) := rfl
    have hi' : sorted (e :: es ++ [const c]) = insert e (sorted (es ++ [const c])) := rfl
    rw [hi', ih hes, insert, ordering_eq_order, order_const_right he, hi]
    rfl

/-- Canonical expressions that are equal up to the order of operands stand in one place of the
order: their operands are sorted. -/
theorem order_eq_of_alike {a b : Expr} (h : alike a b = true) (ha : Canonical a)
    (hb : Canonical b) : order a b = .eq := by
  have hlist {as bs : List Expr}
      (h : List.Forall₂ (fun a b => Canonical a → Canonical b → order a b = .eq) as bs)
      (ha : ∀ a ∈ as, Canonical a) (hb : ∀ b ∈ bs, Canonical b) :
      List.Forall₂ (fun a b => order a b = .eq) as bs := by
    induction h with
    | nil => exact .nil
    | cons hab _ ih =>
      obtain ⟨ha, has⟩ := List.forall_mem_cons.1 ha
      obtain ⟨hb, hbs⟩ := List.forall_mem_cons.1 hb
      exact .cons (hab ha hb) (ih has hbs)
  -- the operands of both sides are sorted, so equal ones stand in the same places
  refine alike_induction (motive := fun a b => Canonical a → Canonical b → order a b = .eq) ?const
    ?var ?sum ?product ?pow ?apply ?call a b h ha hb
  case const => exact fun c _ _ => orderConst_refl c
  case var => exact fun s _ _ _ _ => Symbol.order_refl s
  case sum =>
    intro as bs cs hp hcs ha hb
    exact orderLists_eq_of_perm ha.sum_shape.ascending hb.sum_shape.ascending hp
      (hlist hcs ha.operands fun c hc => hb.operands c (hp.mem_iff.1 hc))
  case product =>
    intro as bs cs hp hcs ha hb
    exact orderLists_eq_of_perm ha.product_shape.ascending hb.product_shape.ascending hp
      (hlist hcs ha.operands fun c hc => hb.operands c (hp.mem_iff.1 hc))
  case pow =>
    intro b p b' p' hb hp h h'
    rw [order, hb (h.operands _ (by simp [Expr.operands])) (h'.operands _ (by simp [Expr.operands])),
      hp (h.operands _ (by simp [Expr.operands])) (h'.operands _ (by simp [Expr.operands]))]
    rfl
  case apply =>
    intro f a b hab h h'
    rw [order, hab (h.operands _ List.mem_cons_self) (h'.operands _ List.mem_cons_self)]
    simp
  case call =>
    intro f ps b b' as bs _ has h h'
    have hes := orderLists_eq_of_map_place (map_place_eq (hlist has h.operands h'.operands))
    rw [order, hes]
    simp

end Symbolic.Expr
