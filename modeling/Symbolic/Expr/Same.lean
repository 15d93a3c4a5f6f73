import Symbolic.Expr.Basic

/-!
Equality of expressions. The operands of sums and products may stand in any order; all else is
compared place by place. A call is compared with the function it calls, a variable by its name.

`alike` says it plainly. `same` gives the same answer (`same_eq_alike`) without looking through what
both sides hold in one place: functions that call one another often would otherwise be compared anew
on every way that leads to them.
-/

namespace Symbolic

/-- The list without its first element that passes the test, if one does. -/
def removeFirst {α : Type} (p : α → Bool) : List α → Option (List α)
  | [] => none
  | x :: xs => if p x then some xs else (removeFirst p xs).map (x :: ·)

/-- What is taken out of a list by `removeFirst`, and what is left. -/
theorem exists_of_removeFirst {α : Type} {p : α → Bool} {xs rest : List α}
    (h : removeFirst p xs = some rest) :
    ∃ ys x zs, p x = true ∧ xs = ys ++ x :: zs ∧ rest = ys ++ zs := by
  induction xs generalizing rest with
  | nil => simp [removeFirst] at h
  | cons y ys ih =>
    by_cases hy : p y = true
    · simp only [removeFirst, hy, if_true, Option.some.injEq] at h
      exact ⟨[], y, ys, hy, rfl, h.symm⟩
    · simp only [removeFirst, hy] at h
      obtain ⟨r, hr, rfl⟩ := Option.map_eq_some_iff.1 h
      obtain ⟨us, x, vs, hx, rfl, rfl⟩ := ih hr
      exact ⟨y :: us, x, vs, hx, rfl, rfl⟩

namespace Expr

mutual

/-- The two are equal up to the order of operands in sums and products. -/
def alike : Expr → Expr → Bool
  | const a, const b => a == b
  | var a _, var b _ => a == b
  | sum as, sum bs => as.length == bs.length && pairsOff as bs
  | product as, product bs => as.length == bs.length && pairsOff as bs
  | pow b p, pow b' p' => alike b b' && alike p p'
  | apply f a, apply g b => f == g && alike a b
  | call f ps b as, call g qs b' bs => f == g && ps == qs && alike b b' && allAlike as bs
  | _, _ => false

/-- Each left operand has an equal right one of its own. -/
def pairsOff : List Expr → List Expr → Bool
  | [], _ => true
  | a :: as, bs =>
    match removeFirst (fun b => alike a b) bs with
    | some rest => pairsOff as rest
    | none => false

def allAlike : List Expr → List Expr → Bool
  | [], [] => true
  | a :: as, b :: bs => alike a b && allAlike as bs
  | _, _ => false

end

mutual

theorem alike_refl : (e : Expr) → alike e e = true
  | const _ | var _ _ => by simp [alike]
  | sum es | product es => by simp [alike, pairsOff_refl es]
  | pow b p => by simp [alike, alike_refl b, alike_refl p]
  | apply _ e => by simp [alike, alike_refl e]
  | call _ _ b es => by simp [alike, alike_refl b, allAlike_refl es]

theorem pairsOff_refl : (es : List Expr) → pairsOff es es = true
  | [] => by simp [pairsOff]
  | e :: es => by simp [pairsOff, removeFirst, alike_refl e, pairsOff_refl es]

theorem allAlike_refl : (es : List Expr) → allAlike es es = true
  | [] => by simp [allAlike]
  | e :: es => by simp [allAlike, alike_refl e, allAlike_refl es]

end

theorem alike_copied (e : Expr) : alike e.copied e = true :=
  copied_of (P := fun d => alike d e = true) (fun _ _ h => by cases e <;> simp_all [alike])
    (alike_refl e)

/-- The answer of `alike`, which is worked out only if the two are held apart. -/
@[inline] def unlessShared (a b : Expr) (r : Unit → { r : Bool // r = alike a b }) :
    { r : Bool // r = alike a b } :=
  ⟨withPtrEq a b (fun _ => (r ()).1) (fun h => by rw [(r ()).2, h, alike_refl]), (r ()).2⟩

mutual

/-- The answer of `alike`, with `unlessShared` at every step. -/
def compareShared : (a b : Expr) → { r : Bool // r = alike a b }
  | sum as, sum bs =>
    ⟨as.length == bs.length && (pairShared as bs).1, by rw [(pairShared as bs).2, alike]⟩
  | product as, product bs =>
    ⟨as.length == bs.length && (pairShared as bs).1, by rw [(pairShared as bs).2, alike]⟩
  | pow b p, pow b' p' =>
    ⟨(unlessShared b b' fun _ => compareShared b b').1 &&
      (unlessShared p p' fun _ => compareShared p p').1, by
      rw [(unlessShared b b' fun _ => compareShared b b').2,
        (unlessShared p p' fun _ => compareShared p p').2, alike]⟩
  | apply f a, apply g b =>
    ⟨f == g && (unlessShared a b fun _ => compareShared a b).1, by
      rw [(unlessShared a b fun _ => compareShared a b).2, alike]⟩
  | call f ps b as, call g qs b' bs =>
    ⟨f == g && ps == qs && (unlessShared b b' fun _ => compareShared b b').1 &&
      (compareAllShared as bs).1, by
      rw [(unlessShared b b' fun _ => compareShared b b').2, (compareAllShared as bs).2, alike]⟩
  | a, b => ⟨alike a b, rfl⟩

def pairShared : (as bs : List Expr) → { r : Bool // r = pairsOff as bs }
  | [], _ => ⟨true, by rw [pairsOff]⟩
  | a :: as, bs =>
    ⟨match removeFirst (fun b => (unlessShared a b fun _ => compareShared a b).1) bs with
      | some rest => (pairShared as rest).1
      | none => false, by
      rw [pairsOff, funext fun b => (unlessShared a b fun _ => compareShared a b).2]
      cases removeFirst (fun b => alike a b) bs with
      | none => rfl
      | some rest => exact (pairShared as rest).2⟩

def compareAllShared : (as bs : List Expr) → { r : Bool // r = allAlike as bs }
  | a :: as, b :: bs =>
    ⟨(unlessShared a b fun _ => compareShared a b).1 && (compareAllShared as bs).1, by
      rw [(unlessShared a b fun _ => compareShared a b).2, (compareAllShared as bs).2,
        allAlike]⟩
  | as, bs => ⟨allAlike as bs, rfl⟩

end

/-- The two are equal up to the order of operands in sums and products. -/
def same (a b : Expr) : Bool := (unlessShared a b fun _ => compareShared a b).1

theorem same_eq_alike (a b : Expr) : same a b = alike a b :=
  (unlessShared a b fun _ => compareShared a b).2

def sameAll (as bs : List Expr) : Bool := (compareAllShared as bs).1

theorem sameAll_eq_allAlike (as bs : List Expr) : sameAll as bs = allAlike as bs :=
  (compareAllShared as bs).2

instance : BEq Expr := ⟨same⟩

end Expr

namespace Definition

/-- The two definitions are one function: name, parameters and body agree. -/
def same (f g : Definition) : Bool :=
  f.name == g.name && f.params == g.params && f.body.same g.body

theorem same_eq (f g : Definition) :
    f.same g = (f.name == g.name && f.params == g.params && f.body.alike g.body) := by
  rw [same, Expr.same_eq_alike]

end Definition

end Symbolic
