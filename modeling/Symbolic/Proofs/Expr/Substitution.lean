import Symbolic.Expr.Substitution
import Symbolic.Proofs.Expr.Induction

/-!
Replacement of variables, node by node. A node whose operands all stay is left as it is; any other is
rebuilt over the replaced operands.
-/

namespace Symbolic.Expr

variable {σ : Symbol → Option Expr}

theorem substitute_const (c : Rat) : substitute σ (const c) = const c := rfl

theorem substitute_var (s : Symbol) (k : Site) :
    substitute σ (var s k) = (σ s).getD (var s k) := by
  rw [substitute, replace?]
  cases σ s with
  | none => rfl
  | some r =>
    by_cases hr : r = var s k
    · simp [hr, Option.filter_some]
    · simp [hr, Option.filter_some]

theorem substitute_of_replace? {e : Expr} (h : replace? σ e = none) : substitute σ e = e := by
  rw [substitute, h, Option.getD_none]

theorem replaceAny?_cons (e : Expr) (es : List Expr) :
    replaceAny? σ (e :: es) =
      if replace? σ e = none ∧ replaceAny? σ es = none then none
      else some (substitute σ e :: (replaceAny? σ es).getD es) := by
  rw [replaceAny?, substitute]
  cases replace? σ e <;> cases replaceAny? σ es <;> simp

/-- The elements of a list are replaced one by one, or all of them stay. -/
theorem replaceAny?_eq (es : List Expr) :
    replaceAny? σ es = none ∧ es.map (substitute σ) = es ∨
      replaceAny? σ es = some (es.map (substitute σ)) := by
  induction es with
  | nil => exact .inl ⟨rfl, rfl⟩
  | cons e es ih =>
    have hrest : (replaceAny? σ es).getD es = es.map (substitute σ) := by
      rcases ih with ⟨hn, hs⟩ | hs
      · rw [hn, Option.getD_none, hs]
      · rw [hs, Option.getD_some]
    rw [replaceAny?_cons, hrest]
    split
    · next h =>
      refine .inl ⟨rfl, ?_⟩
      rw [List.map_cons, substitute_of_replace? h.1, ← hrest, h.2, Option.getD_none]
    · exact .inr rfl

theorem substitute_sum (es : List Expr) :
    substitute σ (sum es) = sum es ∧ es.map (substitute σ) = es ∨
      substitute σ (sum es) = sumOf (es.map (substitute σ)) := by
  rw [substitute, replace?]
  rcases replaceAny?_eq es with ⟨hn, hs⟩ | hs
  · exact .inl ⟨by rw [hn]; rfl, hs⟩
  · exact .inr (by rw [hs]; rfl)

theorem substitute_product (es : List Expr) :
    substitute σ (product es) = product es ∧ es.map (substitute σ) = es ∨
      substitute σ (product es) = productOf (es.map (substitute σ)) := by
  rw [substitute, replace?]
  rcases replaceAny?_eq es with ⟨hn, hs⟩ | hs
  · exact .inl ⟨by rw [hn]; rfl, hs⟩
  · exact .inr (by rw [hs]; rfl)

theorem substitute_call (f : String) (ps : List Symbol) (b : Expr) (es : List Expr) :
    substitute σ (call f ps b es) = call f ps b (es.map (substitute σ)) := by
  rw [substitute, replace?]
  rcases replaceAny?_eq es with ⟨hn, hs⟩ | hs
  · rw [hn, hs]
    rfl
  · rw [hs]
    rfl

theorem substitute_pow (b p : Expr) :
    substitute σ (pow b p) = pow b p ∧ substitute σ b = b ∧ substitute σ p = p ∨
      substitute σ (pow b p) = powOf (substitute σ b) (substitute σ p) := by
  rw [substitute, replace?]
  cases hb : replace? σ b with
  | none =>
    cases hp : replace? σ p with
    | none => exact .inl ⟨rfl, substitute_of_replace? hb, substitute_of_replace? hp⟩
    | some p' => exact .inr (by rw [substitute, substitute, hb, hp]; rfl)
  | some b' => exact .inr (by rw [substitute, substitute, hb]; rfl)

theorem substitute_apply (f : Primitive) (e : Expr) :
    substitute σ (apply f e) = apply f e ∧ substitute σ e = e ∨
      substitute σ (apply f e) = applyOf f (substitute σ e) := by
  rw [substitute, replace?]
  cases he : replace? σ e with
  | none => exact .inl ⟨rfl, substitute_of_replace? he⟩
  | some e' => exact .inr (by rw [substitute, he]; rfl)

end Symbolic.Expr
