import Symbolic.Expr.Canonical

/-!
The constructors of expressions. Each brings its result into canonical form; every expression of the
program is built by these.

The bodies of the constructors are joined by a recursion on a number of steps that is large enough
for their operands. More steps change no answer (`sumWithin_extends`), so a fixed number of them is
tried first, and the operands are weighed only if those do not do (`sumOf_eq`).
-/

namespace Symbolic.Expr

mutual

/-- The sum of a list, within a number of steps. -/
def sumWithin : Nat → List Expr → Option Expr
  | 0, _ => none
  | n + 1, ts => sumBody (productWithin n) (sumWithin n) ts

def productWithin : Nat → List Expr → Option Expr
  | 0, _ => none
  | n + 1, fs => productBody (sumWithin n) (productWithin n) (powWithin n) fs

def powWithin : Nat → Expr → Expr → Option Expr
  | 0, _, _ => none
  | n + 1, b, p => powBody (productWithin n) (powWithin n) b p

end

/-- Where `f` has an answer, `g` has the same. -/
def Extends {α β : Type} (f g : α → Option β) : Prop :=
  ∀ a b, f a = some b → g a = some b

theorem Extends.mapM {α β : Type} {f g : α → Option β} (h : Extends f g) :
    Extends (List.mapM f) (List.mapM g) := by
  intro xs
  induction xs with
  | nil => simp
  | cons x xs ih =>
    intro ys hys
    simp only [List.mapM_cons, Option.bind_eq_bind, Option.bind_eq_some_iff] at hys ⊢
    obtain ⟨y, hy, zs, hzs, e⟩ := hys
    exact ⟨y, h _ _ hy, zs, ih _ hzs, e⟩

theorem likeTerm_extends {product product' : List Expr → Option Expr}
    (h : Extends product product') : Extends (likeTerm product) (likeTerm product') := by
  intro g r hr
  grind [likeTerm, Extends, Option.map_eq_some_iff]

theorem sumBody_extends {product product' again again' : List Expr → Option Expr}
    (hp : Extends product product') (ha : Extends again again') :
    Extends (sumBody product again) (sumBody product' again') := by
  intro ts e he
  simp only [sumBody, Option.bind_eq_bind, Option.bind_eq_some_iff] at he ⊢
  obtain ⟨merged, hm, he⟩ := he
  refine ⟨merged, (likeTerm_extends hp).mapM _ _ hm, ?_⟩
  split at he
  · rw [if_pos ‹_›]
    exact ha _ _ he
  · rwa [if_neg ‹_›]

theorem likePower_extends {sum sum' : List Expr → Option Expr}
    {pow pow' : Expr → Expr → Option Expr} (hs : Extends sum sum')
    (hp : ∀ b, Extends (pow b) (pow' b)) :
    Extends (likePower sum pow) (likePower sum' pow') := by
  intro g r hr
  rw [likePower] at hr ⊢
  split at hr
  · exact hr
  · simp only [Option.bind_eq_bind, Option.bind_eq_some_iff] at hr ⊢
    obtain ⟨p, hsum, hr⟩ := hr
    refine ⟨p, hs _ _ hsum, ?_⟩
    grind [Extends, Option.map_eq_some_iff]

theorem productBody_extends {sum sum' again again' : List Expr → Option Expr}
    {pow pow' : Expr → Expr → Option Expr} (hs : Extends sum sum') (ha : Extends again again')
    (hp : ∀ b, Extends (pow b) (pow' b)) :
    Extends (productBody sum again pow) (productBody sum' again' pow') := by
  intro fs e he
  simp only [productBody] at he ⊢
  split at he
  · rwa [if_pos ‹_›]
  · rw [if_neg ‹_›]
    simp only [Option.bind_eq_bind, Option.bind_eq_some_iff] at he ⊢
    obtain ⟨merged, hm, he⟩ := he
    refine ⟨merged, (likePower_extends hs hp).mapM _ _ hm, ?_⟩
    split at he
    · rw [if_pos ‹_›]
      exact ha _ _ he
    · rwa [if_neg ‹_›]

theorem powBody_extends {product product' : List Expr → Option Expr}
    {again again' : Expr → Expr → Option Expr} (hp : Extends product product')
    (ha : ∀ b, Extends (again b) (again' b)) (b : Expr) :
    Extends (powBody product again b) (powBody product' again' b) := by
  intro p e he
  have hm (p : Expr) : Extends (List.mapM (again · p)) (List.mapM (again' · p)) :=
    Extends.mapM fun f => ha f p
  unfold powBody at he ⊢
  split at he
  · split at he
    · rwa [if_pos ‹_›]
    · rw [if_neg ‹_›]
      split at he
      · rwa [if_pos ‹_›]
      · rw [if_neg ‹_›]
        split at he
        · exact he
        · split at he
          · rw [if_pos ‹_›]
            simp only [Option.bind_eq_bind] at he ⊢
            split at he
            · obtain ⟨q, hq, he⟩ := Option.bind_eq_some_iff.1 he
              exact Option.bind_eq_some_iff.2 ⟨q, hp _ _ hq, ha _ _ _ he⟩
            · obtain ⟨fs, hfs, he⟩ := Option.bind_eq_some_iff.1 he
              exact Option.bind_eq_some_iff.2 ⟨fs, hm _ _ _ hfs, hp _ _ he⟩
            · exact he
          · rwa [if_neg ‹_›]
  · exact he

theorem within_extends (n : Nat) :
    Extends (sumWithin n) (sumWithin (n + 1)) ∧
      Extends (productWithin n) (productWithin (n + 1)) ∧
        ∀ b, Extends (powWithin n b) (powWithin (n + 1) b) := by
  induction n with
  | zero =>
    refine ⟨?_, ?_, fun b => ?_⟩ <;> intro x e he
    · simp [sumWithin] at he
    · simp [productWithin] at he
    · simp [powWithin] at he
  | succ n ih =>
    obtain ⟨hs, hp, hw⟩ := ih
    refine ⟨?_, ?_, fun b => ?_⟩ <;> intro x e he
    · rw [sumWithin] at he ⊢
      exact sumBody_extends hp hs _ _ he
    · rw [productWithin] at he ⊢
      exact productBody_extends hs hp hw _ _ he
    · rw [powWithin] at he ⊢
      exact powBody_extends hp hw _ _ _ he

theorem sumWithin_extends {m n : Nat} (h : m ≤ n) : Extends (sumWithin m) (sumWithin n) := by
  induction h with
  | refl => exact fun _ _ he => he
  | step _ ih => exact fun _ _ he => (within_extends _).1 _ _ (ih _ _ he)

theorem productWithin_extends {m n : Nat} (h : m ≤ n) :
    Extends (productWithin m) (productWithin n) := by
  induction h with
  | refl => exact fun _ _ he => he
  | step _ ih => exact fun _ _ he => (within_extends _).2.1 _ _ (ih _ _ he)

theorem powWithin_extends {m n : Nat} (h : m ≤ n) (b : Expr) :
    Extends (powWithin m b) (powWithin n b) := by
  induction h with
  | refl => exact fun _ _ he => he
  | step _ ih => exact fun _ _ he => (within_extends _).2.2 _ _ _ (ih _ _ he)

mutual

/-- The size of the part that the constructors look into: arguments of functions are not opened. -/
def weight : Expr → Nat
  | const _ | var _ _ | apply _ _ | call _ _ _ _ => 1
  | sum es => weights es + 1
  | product es => weights es + 1
  | pow b p => weight b + weight p + 1

def weights : List Expr → Nat
  | [] => 0
  | e :: es => weight e + weights es

end

/-- A number of steps that suffices for operands of the given weight. -/
def steps (w : Nat) : Nat := (w + 4) * (w + 4) * (w + 4)

theorem steps_zero_le (w : Nat) : steps 0 ≤ steps w := by
  have h : 0 + 4 ≤ w + 4 := Nat.add_le_add_right (Nat.zero_le w) 4
  exact Nat.mul_le_mul (Nat.mul_le_mul h h) h

/-- The canonical sum of a list. -/
def sumOf (ts : List Expr) : Expr :=
  match sumWithin (steps 0) ts with
  | some e => e
  | none => (sumWithin (steps (weights ts)) ts).getD (sum ts)

/-- The canonical product of a list. -/
def productOf (fs : List Expr) : Expr :=
  match productWithin (steps 0) fs with
  | some e => e
  | none => (productWithin (steps (weights fs)) fs).getD (product fs)

/-- The canonical power. -/
def powOf (base power : Expr) : Expr :=
  match powWithin (steps 0) base power with
  | some e => e
  | none => (powWithin (steps (weight base + weight power)) base power).getD (pow base power)

theorem sumOf_eq (ts : List Expr) :
    sumOf ts = (sumWithin (steps (weights ts)) ts).getD (sum ts) := by
  rw [sumOf]
  split
  · next h => rw [sumWithin_extends (steps_zero_le _) _ _ h, Option.getD_some]
  · rfl

theorem productOf_eq (fs : List Expr) :
    productOf fs = (productWithin (steps (weights fs)) fs).getD (product fs) := by
  rw [productOf]
  split
  · next h => rw [productWithin_extends (steps_zero_le _) _ _ h, Option.getD_some]
  · rfl

theorem powOf_eq (base power : Expr) :
    powOf base power =
      (powWithin (steps (weight base + weight power)) base power).getD (pow base power) := by
  rw [powOf]
  split
  · next h => rw [powWithin_extends (steps_zero_le _) _ _ _ h, Option.getD_some]
  · rfl

/-- The canonical application of a primitive. Folded are `ln 1`, the zeros of the odd functions, the
sign of a constant, and the sign of a sign. -/
def applyOf : Primitive → Expr → Expr
  | .ln, const c => if c = 1 then const 0 else apply .ln (const c)
  | .sign, const c => const (Rational.signum c)
  | .sign, apply .sign e => apply .sign e
  | f, const c => if c = 0 then const 0 else apply f (const c)
  | f, e => apply f e

end Symbolic.Expr
