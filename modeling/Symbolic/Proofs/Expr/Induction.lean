import Mathlib.Data.List.Forall2
import Symbolic.Expr.Measure
import Symbolic.Expr.Same

/-!
Induction on expressions. Sums, products and calls hold lists of operands, so the induction that
Lean derives speaks of lists too; here the hypothesis holds of every operand (`recOperands`), and
`induction` uses that by default. Where all nodes are alike, the hypothesis for the operands is enough
(`operand_induction`).

For two expressions that are equal up to the order of operands, `alike_induction` pairs the operands
off: those of a sum or product with a rearrangement of the other side's, all others place by place.
So equal expressions have one size (`size_alike`), and their operands have smaller ones
(`size_operand`).
-/

namespace Symbolic.Expr

/-- Induction with the hypothesis for every operand, and for the body of a call. -/
@[elab_as_elim, induction_eliminator]
theorem recOperands {motive : Expr → Prop} (const : ∀ c, motive (const c))
    (var : ∀ s k, motive (var s k)) (sum : ∀ es, (∀ e ∈ es, motive e) → motive (sum es))
    (product : ∀ es, (∀ e ∈ es, motive e) → motive (product es))
    (pow : ∀ b p, motive b → motive p → motive (pow b p))
    (apply : ∀ f e, motive e → motive (apply f e))
    (call : ∀ f ps b es, motive b → (∀ e ∈ es, motive e) → motive (call f ps b es))
    (e : Expr) : motive e := by
  cases e with
  | const c => exact const c
  | var s k => exact var s k
  | sum es => exact sum es fun e _ => recOperands const var sum product pow apply call e
  | product es => exact product es fun e _ => recOperands const var sum product pow apply call e
  | pow b p =>
    have hb := recOperands const var sum product pow apply call b
    have hp := recOperands const var sum product pow apply call p
    exact pow b p hb hp
  | apply f e => exact apply f e (recOperands const var sum product pow apply call e)
  | call f ps b es =>
    have hb := recOperands const var sum product pow apply call b
    exact call f ps b es hb fun e _ => recOperands const var sum product pow apply call e

/-- What holds of an expression if it holds of the operands, holds of all. -/
theorem operand_induction {P : Expr → Prop} (h : ∀ e, (∀ d ∈ e.operands, P d) → P e) (e : Expr) :
    P e := by
  induction e with
  | const _ | var _ _ => exact h _ (List.forall_mem_nil _)
  | sum es ih => exact h _ ih
  | product es ih => exact h _ ih
  | pow b p ihb ihp => exact h _ (List.forall_mem_cons.2 ⟨ihb, List.forall_mem_singleton.2 ihp⟩)
  | apply f e ih => exact h _ (List.forall_mem_singleton.2 ih)
  | call f ps b es _ ih => exact h _ ih

/-- Lists that pair off are equal place by place after one is rearranged. -/
theorem exists_perm_of_pairsOff {as bs : List Expr} (hl : as.length = bs.length)
    (h : pairsOff as bs = true) :
    ∃ cs, cs.Perm bs ∧ List.Forall₂ (fun a c => alike a c = true) as cs := by
  induction as generalizing bs with
  | nil =>
    rw [List.eq_nil_of_length_eq_zero hl.symm]
    exact ⟨[], .nil, .nil⟩
  | cons a as ih =>
    rw [pairsOff] at h
    split at h
    · next rest hr =>
      -- the partner of `a` is taken out of the middle of the right list
      obtain ⟨us, b, vs, hb, rfl, rfl⟩ := exists_of_removeFirst hr
      have hl' : as.length = (us ++ vs).length := by simp at hl ⊢; omega
      obtain ⟨cs, hp, hcs⟩ := ih hl' h
      exact ⟨b :: cs, (hp.cons b).trans List.perm_middle.symm, .cons hb hcs⟩
    · cases h

theorem forall₂_of_allAlike {as bs : List Expr} (h : allAlike as bs = true) :
    List.Forall₂ (fun a b => alike a b = true) as bs := by
  induction as generalizing bs with
  | nil =>
    cases bs with
    | nil => exact .nil
    | cons b bs => simp [allAlike] at h
  | cons a as ih =>
    cases bs with
    | nil => simp [allAlike] at h
    | cons b bs =>
      rw [allAlike, Bool.and_eq_true] at h
      exact .cons h.1 (ih h.2)

/-- What holds of the members of two lists holds of those that belong together. -/
theorem forall₂_imp_of_mem {α β : Type} {R S : α → β → Prop} {xs : List α} {ys : List β}
    (h : List.Forall₂ R xs ys) (hs : ∀ x ∈ xs, ∀ y ∈ ys, R x y → S x y) :
    List.Forall₂ S xs ys := by
  induction h with
  | nil => exact .nil
  | cons hxy _ ih =>
    refine .cons (hs _ List.mem_cons_self _ List.mem_cons_self hxy) (ih ?_)
    exact fun x hx y hy => hs x (List.mem_cons_of_mem _ hx) y (List.mem_cons_of_mem _ hy)

/-- Induction on two expressions that are equal up to the order of operands. -/
@[elab_as_elim]
theorem alike_induction {motive : Expr → Expr → Prop} (const : ∀ c, motive (const c) (const c))
    (var : ∀ s k l, motive (var s k) (var s l))
    (sum : ∀ as bs cs, cs.Perm bs → List.Forall₂ motive as cs → motive (sum as) (sum bs))
    (product : ∀ as bs cs, cs.Perm bs → List.Forall₂ motive as cs →
      motive (product as) (product bs))
    (pow : ∀ b p b' p', motive b b' → motive p p' → motive (pow b p) (pow b' p'))
    (apply : ∀ f a b, motive a b → motive (apply f a) (apply f b))
    (call : ∀ f ps b b' as bs, motive b b' → List.Forall₂ motive as bs →
      motive (call f ps b as) (call f ps b' bs))
    (a b : Expr) (h : alike a b = true) : motive a b := by
  induction a generalizing b with
  | const c =>
    cases b <;> simp [alike] at h
    exact h ▸ const c
  | var s k =>
    cases b <;> simp [alike] at h
    exact h ▸ var s k _
  | sum as ih =>
    cases b <;> simp only [alike, Bool.and_eq_true, beq_iff_eq, Bool.false_eq_true] at h
    obtain ⟨cs, hp, hcs⟩ := exists_perm_of_pairsOff h.1 h.2
    exact sum _ _ cs hp (forall₂_imp_of_mem hcs fun a ha b _ => ih a ha b)
  | product as ih =>
    cases b <;> simp only [alike, Bool.and_eq_true, beq_iff_eq, Bool.false_eq_true] at h
    obtain ⟨cs, hp, hcs⟩ := exists_perm_of_pairsOff h.1 h.2
    exact product _ _ cs hp (forall₂_imp_of_mem hcs fun a ha b _ => ih a ha b)
  | pow b p ihb ihp =>
    cases ‹Expr› <;> simp only [alike, Bool.and_eq_true, Bool.false_eq_true] at h
    exact pow _ _ _ _ (ihb _ h.1) (ihp _ h.2)
  | apply f a ih =>
    cases b <;> simp only [alike, Bool.and_eq_true, beq_iff_eq, Bool.false_eq_true] at h
    exact h.1 ▸ apply _ _ _ (ih _ h.2)
  | call f ps b as ihb ihs =>
    cases ‹Expr› <;> simp only [alike, Bool.and_eq_true, beq_iff_eq, Bool.false_eq_true] at h
    obtain ⟨⟨⟨rfl, rfl⟩, hb⟩, has⟩ := h
    have hargs := forall₂_imp_of_mem (forall₂_of_allAlike has) fun a ha b _ => ihs a ha b
    exact call _ _ _ _ _ _ (ihb _ hb) hargs

/-! Sizes. -/

variable {e : Expr} {as bs es : List Expr}

theorem sizes_perm (h : as.Perm bs) : sizes as = sizes bs := by
  induction h with
  | nil => rfl
  | cons _ _ ih => rw [sizes, sizes, ih]
  | swap _ _ _ =>
    simp only [sizes]
    omega
  | trans _ _ h₁ h₂ => exact h₁.trans h₂

theorem sizes_of_forall₂ (h : List.Forall₂ (fun a b => size a = size b) as bs) :
    sizes as = sizes bs := by
  induction h with
  | nil => rfl
  | cons hab _ ih => rw [sizes, sizes, hab, ih]

theorem size_le_sizes (h : e ∈ es) : size e ≤ sizes es := by
  obtain ⟨as, bs, rfl⟩ := List.append_of_mem h
  rw [sizes_perm List.perm_middle]
  exact Nat.le_add_right _ _

theorem size_operand {d : Expr} (h : d ∈ e.operands) : size d < size e := by
  cases e with
  | const _ | var _ _ => cases h
  | sum es | product es | call _ _ _ es => exact Nat.lt_succ_of_le (size_le_sizes h)
  | pow b p =>
    rw [size]
    rcases List.mem_pair.1 h with rfl | rfl <;> omega
  | apply f e =>
    rw [List.mem_singleton.1 h, size]
    omega

/-- Expressions that are equal up to the order of operands have equally many nodes. -/
theorem size_alike {a b : Expr} (h : alike a b = true) : size a = size b := by
  have hlist {as bs cs : List Expr} (hp : cs.Perm bs)
      (h : List.Forall₂ (fun a b => size a = size b) as cs) : sizes as = sizes bs :=
    (sizes_of_forall₂ h).trans (sizes_perm hp)
  refine alike_induction (motive := fun a b => size a = size b) ?const ?var ?sum ?product ?pow
    ?apply ?call a b h
  case const => exact fun _ => rfl
  case var => exact fun _ _ _ => rfl
  case sum => exact fun as bs cs hp h => congrArg (· + 1) (hlist hp h)
  case product => exact fun as bs cs hp h => congrArg (· + 1) (hlist hp h)
  case pow => exact fun b p b' p' hb hp => by rw [size, size, hb, hp]
  case apply => exact fun f a b hab => congrArg (· + 1) hab
  case call => exact fun f ps b b' as bs _ h => congrArg (· + 1) (sizes_of_forall₂ h)

end Symbolic.Expr
