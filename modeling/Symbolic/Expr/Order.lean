import Symbolic.Expr.Basic

/-!
The order in which the operands of sums and products are kept: by kind, then larger constants
first, names by their characters, and operands place by place.

`order` says it plainly. `ordering` gives the same answer (`ordering_eq_order`) without looking
through what both sides hold in one place.
-/

namespace Symbolic.Expr

/-- The place of a kind of expression in the order. -/
def rank : Expr → Nat
  | const _ => 0
  | var _ _ => 1
  | pow _ _ => 2
  | product _ => 3
  | sum _ => 4
  | apply _ _ => 5
  | call _ _ _ _ => 6

/-- The order of two constants: the larger one comes first. -/
def orderConst (a b : Rat) : Ordering := compareOfLessAndEq b a

theorem orderConst_refl (a : Rat) : orderConst a a = .eq := by
  rw [orderConst, compareOfLessAndEq, if_neg Rat.lt_irrefl, if_pos rfl]

mutual

/-- The order of two expressions. Calls are compared by the name of the function and by their
arguments. -/
def order : Expr → Expr → Ordering
  | const a, const b => orderConst a b
  | var a _, var b _ => a.order b
  | sum as, sum bs => orderLists as bs
  | product as, product bs => orderLists as bs
  | pow b p, pow b' p' => (order b b').then (order p p')
  | apply f a, apply g b => (compare f.rank g.rank).then (order a b)
  | call f _ _ as, call g _ _ bs => (compare f g).then (orderLists as bs)
  | a, b => compare a.rank b.rank

/-- Place by place; a list comes before its extensions. -/
def orderLists : List Expr → List Expr → Ordering
  | [], [] => .eq
  | [], _ :: _ => .lt
  | _ :: _, [] => .gt
  | a :: as, b :: bs => (order a b).then (orderLists as bs)

end

mutual

theorem order_refl : (e : Expr) → order e e = .eq
  | const _ => by simp [order, orderConst_refl]
  | var s _ => by simp [order, Symbol.order_refl]
  | sum es | product es => by simp [order, orderLists_refl es]
  | pow b p => by simp [order, order_refl b, order_refl p]
  | apply f e => by simp [order, order_refl e]
  | call f _ _ es => by simp [order, orderLists_refl es]

theorem orderLists_refl : (es : List Expr) → orderLists es es = .eq
  | [] => by simp [orderLists]
  | e :: es => by simp [orderLists, order_refl e, orderLists_refl es]

end

/-- The order of the two, which is worked out only if they are held apart. -/
@[inline] def orderUnlessShared (a b : Expr) (o : Unit → { o : Ordering // o = order a b }) :
    { o : Ordering // o = order a b } :=
  let o := Thunk.mk o
  if h : withPtrEq a b (fun _ => o.get.1 == .eq)
      (fun h => by rw [o.get.2, h, order_refl]; rfl) = true then
    ⟨.eq, by rw [← o.get.2]; exact (beq_iff_eq.1 h).symm⟩
  else o.get

mutual

/-- The order of the two, with `orderUnlessShared` at every step. -/
def orderShared : (a b : Expr) → { o : Ordering // o = order a b }
  | sum as, sum bs => ⟨(orderListsShared as bs).1, by rw [(orderListsShared as bs).2, order]⟩
  | product as, product bs => ⟨(orderListsShared as bs).1, by rw [(orderListsShared as bs).2, order]⟩
  | pow b p, pow b' p' =>
    ⟨(orderUnlessShared b b' fun _ => orderShared b b').1.then
      (orderUnlessShared p p' fun _ => orderShared p p').1, by
      rw [(orderUnlessShared b b' fun _ => orderShared b b').2,
        (orderUnlessShared p p' fun _ => orderShared p p').2, order]⟩
  | apply f a, apply g b =>
    ⟨(compare f.rank g.rank).then (orderUnlessShared a b fun _ => orderShared a b).1, by
      rw [(orderUnlessShared a b fun _ => orderShared a b).2, order]⟩
  | call f _ _ as, call g _ _ bs =>
    ⟨(compare f g).then (orderListsShared as bs).1, by rw [(orderListsShared as bs).2, order]⟩
  | a, b => ⟨order a b, rfl⟩

def orderListsShared : (as bs : List Expr) → { o : Ordering // o = orderLists as bs }
  | a :: as, b :: bs =>
    ⟨(orderUnlessShared a b fun _ => orderShared a b).1.then (orderListsShared as bs).1, by
      rw [(orderUnlessShared a b fun _ => orderShared a b).2, (orderListsShared as bs).2,
        orderLists]⟩
  | as, bs => ⟨orderLists as bs, rfl⟩

end

def ordering (a b : Expr) : Ordering := (orderUnlessShared a b fun _ => orderShared a b).1

theorem ordering_eq_order (a b : Expr) : ordering a b = order a b :=
  (orderUnlessShared a b fun _ => orderShared a b).2

/-- Put an expression into a sorted list, before those that are equal to it in the order. -/
def insert (e : Expr) : List Expr → List Expr
  | [] => [e]
  | f :: fs => if ordering e f == .gt then f :: insert e fs else e :: f :: fs

/-- The list in order; those that are equal in the order keep their places. -/
def sorted (es : List Expr) : List Expr :=
  es.foldr insert []

end Symbolic.Expr
