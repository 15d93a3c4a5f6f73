import Symbolic.Proofs.Canonical.Printed

/-!
The order as a preorder. What it ties need not be one tree: equal canonical expressions tie, because
their operands are sorted. Nor need it be equal: the order takes functions by their names, so calls of
two functions of one name tie (`ordering_on`). Nothing else ties without being equal
(`ordering_separates`).
-/

namespace Symbolic.Expr

variable {a b : Expr}

/-- The order is a total preorder, and equal expressions that can be had tie in it. -/
theorem ordering_preorder (ha : Constructible a) (hb : Constructible b) (c : Expr) :
    ordering a a = .eq ∧ ordering b a = (ordering a b).swap ∧
      (ordering a b ≠ .gt → ordering b c ≠ .gt → ordering a c ≠ .gt) ∧
      (a.same b = true → ordering a b = .eq) := by
  simp only [ordering_eq_order]
  refine ⟨order_refl a, order_swap b a, ?_, fun h => ?_⟩
  · exact IsTrans.trans (r := fun x y : Expr => order x y ≠ .gt) a b c
  · exact order_eq_of_alike (same_iff.1 h) (constructible_canonical ha) (constructible_canonical hb)

/-- The calls of two functions of one name, summed in either order, and their product. -/
theorem ordering_preorder_calls :
    let f := (shift 1).on [ofName "x"]
    let g := (shift 2).on [ofName "x"]
    ordering (f + g) (g + f) = .eq ∧ ordering (g + f) (f + g) = .eq ∧ ordering (f + g) f = .lt ∧
      ordering f (f + g) = .gt ∧ ordering (g + f) f ≠ .gt := by
  intro f g
  have hcall (c : Rat) : Constructible ((shift c).on [ofName "x"]) :=
    .call (f := shift c) (.sum (Closed.forall_pair (.var _ _) (.const c)))
      (List.forall_mem_singleton.2 (.var _ _)) rfl
  have hfg : Constructible (f + g) := .sum (Closed.forall_pair (hcall 1) (hcall 2))
  have hgf : Constructible (g + f) := .sum (Closed.forall_pair (hcall 2) (hcall 1))
  have hlt : ordering (f + g) f = .lt := by decide +kernel
  obtain ⟨-, hswap, -, hequal⟩ := ordering_preorder hfg hgf f
  have htie : ordering (f + g) (g + f) = .eq := hequal (by decide +kernel)
  have hback : ordering (g + f) (f + g) = .eq := by rw [hswap, htie]; rfl
  obtain ⟨-, -, htrans, -⟩ := ordering_preorder hgf hfg f
  obtain ⟨-, hswap', -, -⟩ := ordering_preorder hfg (hcall 1) f
  refine ⟨htie, hback, hlt, ?_, htrans (by simp [hback]) (by simp [hlt])⟩
  rw [hswap', hlt]
  rfl

/-! What ties is equal, but for functions of one name. -/

/-- Calls of functions of one name tie if their arguments do, whatever the functions are. -/
theorem ordering_on {f g : Definition} (hn : f.name = g.name) (es : List Expr) :
    ordering (f.on es) (g.on es) = .eq := by
  rw [ordering_eq_order, Definition.on, Definition.on, order, hn, orderLists_refl]
  simp

/-- The order separates expressions that differ, if functions of one name that they call are the
same. -/
theorem ordering_separates (ha : Constructible a) (hb : Constructible b)
    (hcalls : ∀ f ∈ a.calls, ∀ g ∈ b.calls, f.name = g.name → f.same g = true) :
    ordering a b = .eq ↔ a.same b = true := by
  rw [ordering_eq_order]
  constructor
  · intro h
    exact same_iff.2 (alike_of_order_eq h hcalls)
  · intro h
    have halike := same_iff.1 h
    exact order_eq_of_alike halike (constructible_canonical ha) (constructible_canonical hb)

/-- Two calls of one function and one of the cosine, added up in two ways. -/
theorem ordering_separates_calls :
    let f := (shift 1).on [ofName "x"]
    let c := Builtin.cos.on [(shift 1).on [ofName "y"]]
    ordering (f + c) (c + f) = .eq ∧ (f + c).same (c + f) = true ∧
      ordering (f + c) (f + f) ≠ .eq := by
  intro f c
  have hf : Constructible f := constructible_shift 1 "x"
  have hc : Constructible c := .callOf rfl (closed_constructible.builtin .cos)
    (List.forall_mem_singleton.2 (constructible_shift 1 "y"))
  have hfc : Constructible (f + c) := .sum (Closed.forall_pair hf hc)
  have hcf : Constructible (c + f) := .sum (Closed.forall_pair hc hf)
  have hff : Constructible (f + f) := .sum (Closed.forall_pair hf hf)
  have hsame : (f + c).same (c + f) = true := by decide +kernel
  have hdiffer : (f + c).same (f + f) = false := by decide +kernel
  refine ⟨(ordering_separates hfc hcf (by decide +kernel)).2 hsame, hsame, fun h => ?_⟩
  have hequal := (ordering_separates hfc hff (by decide +kernel)).1 h
  rw [hdiffer] at hequal
  cases hequal

/-- The calls of two functions of one name tie, and they are not equal. -/
theorem not_ordering_separates :
    let f := (shift 1).on [ofName "x"]
    let g := (shift 2).on [ofName "x"]
    Constructible f ∧ Constructible g ∧ ordering f g = .eq ∧ f.same g = false := by
  have hname : (shift 1).name = (shift 2).name := rfl
  exact ⟨constructible_shift 1 "x", constructible_shift 2 "x", ordering_on hname _,
    by decide +kernel⟩

end Symbolic.Expr
