import Symbolic.Proofs.Canonical.Congruence
import Symbolic.Proofs.Expr.Substitution

/-!
Steady expressions: rebuilt from its operands, every subtree is itself. What is replaced in an
expression rebuilds some of its nodes and leaves others as they are, and which ones depends on what
is put in: a variable that is to be replaced by itself is left where it stands. In a steady
expression that makes no difference, so equal values put into it give equal expressions
(`Steady.substitute_alike`).
-/

namespace Symbolic.Expr

/-- The subtrees of an expression: itself, its operands, and so on. -/
inductive Subtree (e : Expr) : Expr → Prop where
  | self : Subtree e e
  | operand {d t : Expr} : Subtree e d → t ∈ d.operands → Subtree e t

theorem Subtree.trans {a b c : Expr} (hab : Subtree a b) (hbc : Subtree b c) : Subtree a c := by
  induction hbc with
  | self => exact hab
  | operand _ ht ih => exact .operand ih ht

theorem Subtree.cases_operand {e t : Expr} (h : Subtree e t) : t = e ∨ ∃ d ∈ e.operands, Subtree d t := by
  induction h with
  | self => exact .inl rfl
  | operand _ ht ih =>
    rcases ih with rfl | ⟨d, hd, h⟩
    · exact .inr ⟨_, ht, .self⟩
    · exact .inr ⟨d, hd, .operand h ht⟩

/-- What holds of all subtrees holds of the expression and of the subtrees of its operands. -/
theorem forall_subtree {P : Expr → Prop} {e : Expr} :
    (∀ t, Subtree e t → P t) ↔ P e ∧ ∀ d ∈ e.operands, ∀ t, Subtree d t → P t := by
  constructor
  · exact fun h => ⟨h e .self, fun d hd t ht => h t (Subtree.trans (.operand .self hd) ht)⟩
  · rintro ⟨h, hd⟩ t ht
    rcases ht.cases_operand with rfl | ⟨d, hmem, ht⟩
    · exact h
    · exact hd d hmem t ht

theorem Subtree.size_le {e t : Expr} (h : Subtree e t) : size t ≤ size e := by
  induction h with
  | self => exact Nat.le_refl _
  | operand _ ht ih => exact (Nat.le_of_lt (size_operand ht)).trans ih

/-- Rebuilt from its operands, every subtree is itself. -/
def Steady (e : Expr) : Prop := ∀ t, Subtree e t → (t.withOperands t.operands).same t = true

theorem Steady.subtree {e t : Expr} (h : Steady e) (ht : Subtree e t) : Steady t :=
  fun u hu => h u (ht.trans hu)

theorem Steady.rebuilt {e : Expr} (h : Steady e) : Alike (e.withOperands e.operands) e :=
  same_iff.1 (h e .self)

theorem Steady.operands {e : Expr} (h : Steady e) : ∀ d ∈ e.operands, Steady d :=
  fun _ hd => h.subtree (.operand .self hd)

theorem steady_iff {e : Expr} :
    Steady e ↔ (e.withOperands e.operands).same e = true ∧ ∀ d ∈ e.operands, Steady d :=
  forall_subtree

mutual

def isSteady : Expr → Bool
  | const _ | var _ _ => true
  | sum es => (sumOf es).same (sum es) && allSteady es
  | product es => (productOf es).same (product es) && allSteady es
  | pow b p => (powOf b p).same (pow b p) && (isSteady b && isSteady p)
  | apply f e => (applyOf f e).same (apply f e) && isSteady e
  | call _ _ _ es => allSteady es

def allSteady : List Expr → Bool
  | [] => true
  | e :: es => isSteady e && allSteady es

end

theorem allSteady_eq_true {es : List Expr} (h : ∀ e ∈ es, isSteady e = true ↔ Steady e) :
    allSteady es = true ↔ ∀ e ∈ es, Steady e := by
  induction es with
  | nil => simp [allSteady]
  | cons e es ih =>
    obtain ⟨he, hes⟩ := List.forall_mem_cons.1 h
    rw [allSteady, Bool.and_eq_true, he, ih hes, List.forall_mem_cons]

theorem isSteady_eq_true (e : Expr) : isSteady e = true ↔ Steady e := by
  rw [steady_iff]
  induction e with
  | const c => simp [isSteady, withOperands, operands, same_iff, Alike.refl]
  | var s k => simp [isSteady, withOperands, operands, same_iff, Alike.refl]
  | sum es ih =>
    rw [isSteady, Bool.and_eq_true, allSteady_eq_true fun e he => (ih e he).trans steady_iff.symm]
    rfl
  | product es ih =>
    rw [isSteady, Bool.and_eq_true, allSteady_eq_true fun e he => (ih e he).trans steady_iff.symm]
    rfl
  | pow b p ihb ihp =>
    rw [isSteady, Bool.and_eq_true, Bool.and_eq_true, ihb, ihp, ← steady_iff, ← steady_iff]
    simp [withOperands, operands]
  | apply f e ih =>
    rw [isSteady, Bool.and_eq_true, ih, ← steady_iff]
    simp [withOperands, operands]
  | call f ps b es _ ih =>
    rw [isSteady, allSteady_eq_true fun e he => (ih e he).trans steady_iff.symm]
    have hself : (call f ps b es).withOperands es = call f ps b es := by simp [withOperands]
    simp [operands, hself, same_iff, Alike.refl]

instance : DecidablePred Steady := fun e => decidable_of_iff _ (isSteady_eq_true e)

/-! Replacement. -/

section Substitution

variable {σ τ : Symbol → Option Expr}

/-- What is replaced in a steady expression is rebuilt from its operands, as it were. -/
theorem Steady.substitute_sum {es : List Expr} (h : Steady (sum es)) :
    Alike (substitute σ (sum es)) (sumOf (es.map (substitute σ))) := by
  rcases Expr.substitute_sum (σ := σ) es with ⟨hs, hes⟩ | hs
  · rw [hs, hes]
    exact h.rebuilt.symm
  · rw [hs]
    exact .refl _

theorem Steady.substitute_product {es : List Expr} (h : Steady (product es)) :
    Alike (substitute σ (product es)) (productOf (es.map (substitute σ))) := by
  rcases Expr.substitute_product (σ := σ) es with ⟨hs, hes⟩ | hs
  · rw [hs, hes]
    exact h.rebuilt.symm
  · rw [hs]
    exact .refl _

theorem Steady.substitute_pow {b p : Expr} (h : Steady (pow b p)) :
    Alike (substitute σ (pow b p)) (powOf (substitute σ b) (substitute σ p)) := by
  rcases Expr.substitute_pow (σ := σ) b p with ⟨hs, hb, hp⟩ | hs
  · rw [hs, hb, hp]
    exact h.rebuilt.symm
  · rw [hs]
    exact .refl _

theorem Steady.substitute_apply {f : Primitive} {e : Expr} (h : Steady (apply f e)) :
    Alike (substitute σ (apply f e)) (applyOf f (substitute σ e)) := by
  rcases Expr.substitute_apply (σ := σ) f e with ⟨hs, he⟩ | hs
  · rw [hs, he]
    exact h.rebuilt.symm
  · rw [hs]
    exact .refl _

/-- Equal values put into equal steady expressions give equal expressions. -/
theorem Steady.substitute_alike {e e' : Expr} (h : Steady e) (h' : Steady e') (he : Canonical e)
    (he' : Canonical e') (hee : Alike e e') (hσ : ∀ s r, σ s = some r → Canonical r)
    (hτ : ∀ s r, τ s = some r → Canonical r) (hστ : ∀ s, Option.Rel Alike (σ s) (τ s)) :
    Alike (e.substitute σ) (e'.substitute τ) := by
  have hcs {e : Expr} (he : Canonical e) : Canonical (e.substitute σ) :=
    closed_canonical.substitute hσ he
  have hct {e : Expr} (he : Canonical e) : Canonical (e.substitute τ) :=
    closed_canonical.substitute hτ he
  have hls {es : List Expr} (hes : ∀ e ∈ es, Canonical e) :
      ∀ d ∈ es.map (substitute σ), Canonical d := List.forall_mem_map.2 fun e h => hcs (hes e h)
  have hlt {es : List Expr} (hes : ∀ e ∈ es, Canonical e) :
      ∀ d ∈ es.map (substitute τ), Canonical d := List.forall_mem_map.2 fun e h => hct (hes e h)
  induction e generalizing e' with
  | const c =>
    rw [hee.eq_const]
    exact .refl _
  | var s k =>
    obtain ⟨l, rfl⟩ := hee.eq_var
    have hs := hστ s
    rw [substitute_var, substitute_var]
    generalize σ s = x at hs
    generalize τ s = y at hs
    cases hs with
    | none => exact hee
    | some hxy => exact hxy
  | sum es ih =>
    obtain ⟨es', rfl, hes⟩ := hee.eq_sum
    have hmap := hes.map (f := substitute σ) (g := substitute τ) fun e hm e' hm' hee =>
      ih e hm (h.operands e hm) (h'.operands e' hm') (he.operands e hm) (he'.operands e' hm') hee
    exact h.substitute_sum.trans ((sumOf_alike (hls he.operands) (hlt he'.operands) hmap).trans
      h'.substitute_sum.symm)
  | product es ih =>
    obtain ⟨es', rfl, hes⟩ := hee.eq_product
    have hmap := hes.map (f := substitute σ) (g := substitute τ) fun e hm e' hm' hee =>
      ih e hm (h.operands e hm) (h'.operands e' hm') (he.operands e hm) (he'.operands e' hm') hee
    exact h.substitute_product.trans
      ((productOf_alike (hls he.operands) (hlt he'.operands) hmap).trans h'.substitute_product.symm)
  | pow b p ihb ihp =>
    obtain ⟨b', p', rfl, hbb, hpp⟩ := hee.eq_pow
    have hb := he.operands b (by simp [Expr.operands])
    have hp := he.operands p (by simp [Expr.operands])
    have hb' := he'.operands b' (by simp [Expr.operands])
    have hp' := he'.operands p' (by simp [Expr.operands])
    have hbs := ihb (h.operands b (by simp [Expr.operands]))
      (h'.operands b' (by simp [Expr.operands])) hb hb' hbb
    have hps := ihp (h.operands p (by simp [Expr.operands]))
      (h'.operands p' (by simp [Expr.operands])) hp hp' hpp
    exact h.substitute_pow.trans
      ((powOf_alike (hcs hb) (hcs hp) (hct hb') (hct hp') hbs hps).trans h'.substitute_pow.symm)
  | apply f e ih =>
    obtain ⟨e', rfl, harg⟩ := hee.eq_apply
    have hmem : e ∈ (apply f e).operands := List.mem_cons_self
    have hmem' : e' ∈ (apply f e').operands := List.mem_cons_self
    have hes := ih (h.operands e hmem) (h'.operands e' hmem') (he.operands e hmem)
      (he'.operands e' hmem') harg
    exact h.substitute_apply.trans ((applyOf_alike f hes).trans h'.substitute_apply.symm)
  | call f ps b es _ ih =>
    obtain ⟨b', es', rfl, hbb, hes⟩ := hee.eq_call
    rw [substitute_call, substitute_call]
    refine alike_call.2 ⟨rfl, rfl, hbb, ?_⟩
    rw [List.forall₂_map_left_iff, List.forall₂_map_right_iff]
    exact forall₂_imp_of_mem hes fun e hm e' hm' hee =>
      ih e hm (h.operands e hm) (h'.operands e' hm') (he.operands e hm) (he'.operands e' hm') hee

end Substitution

end Symbolic.Expr
