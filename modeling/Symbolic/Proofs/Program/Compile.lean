import Symbolic.Program.Compile
import Symbolic.Proofs.Canonical.Constructible
import Symbolic.Proofs.Program.Graph

/-!
Compiled functions give the values of expressions. All three ways of evaluation, over the tree, on a
stack and in cells, do the same operations on the same operands, so no law is asked of the numbers.
-/

namespace Symbolic.CompileOptions

open Symbolic.Expr

variable {α : Type} [Scalar α]

theorem exists_value {e : Expr} (hd : e.Direct) {ps : List Symbol} (hps : ∀ s ∈ e.vars, s ∈ ps)
    {xs : List α} (hxs : xs.length = ps.length) :
    ∃ v, e.evaluate (Valuation.ofList (ps.zip xs)) = .ok v := by
  refine exists_evaluate hd fun s hs => ?_
  rw [Valuation.get?_ofList]
  refine exists_lookupLast ?_
  -- every variable is among the parameters, and those have values
  rw [List.map_fst_zip (Nat.le_of_eq hxs.symm)]
  exact hps s (Symbol.mem_sorted.2 hs)

theorem compile_eq (ps : List Symbol) (t : Target) (e : Expr) :
    compile ⟨some ps, 0, t⟩ e = programFor ⟨some ps, 0, t⟩ ps e >>= fun p => .ok ⟨e, ps, p⟩ :=
  rfl

theorem compile_heap {e : Expr} (hd : e.Direct) (hc : e.Canonical) {ps : List Symbol} {xs : List α}
    (hxs : xs.length = ps.length) {v : α}
    (hv : e.evaluate (Valuation.ofList (ps.zip xs)) = .ok v) :
    ∃ c, compile ⟨some ps, 0, .heap⟩ e = .ok c ∧ c.evaluate xs = .ok v := by
  obtain ⟨code, hcode, hrun⟩ := GraphCode.ofExpr_spec (agrees_ofList hxs) hd hc hv
  refine ⟨⟨e, ps, .heap code⟩, ?_, ?_⟩
  · rw [compile_eq, programFor]
    simp only [hcode]
    rfl
  · rw [Compiled.evaluate, if_pos hxs]
    exact congrArg Except.ok (hrun _ Array.size_replicate)

theorem compile_stack {e : Expr} (hd : e.Direct) (hc : e.Canonical) {ps : List Symbol} {xs : List α}
    (hxs : xs.length = ps.length) {v : α}
    (hv : e.evaluate (Valuation.ofList (ps.zip xs)) = .ok v) :
    (∃ c, compile ⟨some ps, 0, .stack⟩ e = .ok c ∧ c.evaluate xs = .ok v) ∨
      ∃ d, compile ⟨some ps, 0, .stack⟩ e = .error (.stackTooDeep d maxStackDepth) := by
  rcases StackCode.ofExpr_spec (agrees_ofList hxs) hd hc hv with ⟨code, hcode, hrun⟩ | ⟨d, hdeep⟩
  · refine .inl ⟨⟨e, ps, .stack code⟩, ?_, ?_⟩
    · rw [compile_eq, programFor]
      simp only [hcode]
      rfl
    · rw [Compiled.evaluate, if_pos hxs]
      exact congrArg Except.ok hrun
  · refine .inr ⟨d, ?_⟩
    rw [compile_eq, programFor]
    simp only [hdeep]
    rfl

/-- Compiled as it stands, an expression that calls no functions but those defined from the start
has, in cells, the value that it has as a tree; so it has on a stack unless that gets too deep. -/
theorem compile_faithful {e : Expr} (he : Constructible e) (hs : e.Standard) {ps : List Symbol}
    (hps : ∀ s ∈ e.vars, s ∈ ps) {xs : List α} (hxs : xs.length = ps.length) :
    ∃ v, e.evaluate (Valuation.ofList (ps.zip xs)) = .ok v ∧
      (∃ c, compile ⟨some ps, 0, .heap⟩ e = .ok c ∧ c.evaluate xs = .ok v) ∧
      ((∃ c, compile ⟨some ps, 0, .stack⟩ e = .ok c ∧ c.evaluate xs = .ok v) ∨
        ∃ d, compile ⟨some ps, 0, .stack⟩ e = .error (.stackTooDeep d maxStackDepth)) := by
  have hc : Canonical e := he.holds closed_canonical
  have hd := hs.direct hc
  obtain ⟨v, hv⟩ := exists_value hd hps hxs
  exact ⟨v, hv, compile_heap hd hc hxs hv, compile_stack hd hc hxs hv⟩

def powerAndCosine : Expr :=
  sumOf [powOf (ofName "x") (ofName "y"), Builtin.cos.on [ofName "x"]]

theorem powerAndCosine_eq : powerAndCosine =
    .sum [.pow (ofName "x") (ofName "y"), Builtin.cos.on [ofName "x"]] := by
  decide +kernel

/-- With the parameters `x`, `y` and `x` again, the value of `x` is the later one. -/
theorem compile_faithful_repeated :
    ∃ c, compile ⟨some [.ofName "x", .ofName "y", .ofName "x"], 0, .heap⟩ powerAndCosine = .ok c ∧
      c.evaluate [(1 : Float), 2, 3] =
        .ok (Scalar.binary .add (Scalar.binary .power 3 2) (Scalar.unary .cos 3)) := by
  have hx : Constructible (ofName "x") := .var _ _
  have hy : Constructible (ofName "y") := .var _ _
  have hcos : Constructible (Builtin.cos.on [ofName "x"]) :=
    .callOf rfl (closed_constructible.builtin .cos) (List.forall_mem_singleton.2 hx)
  have he : Constructible powerAndCosine := .sum (Closed.forall_pair (.pow hx hy) hcos)
  have hs : Standard powerAndCosine := by
    rw [powerAndCosine_eq]
    refine .sum (Closed.forall_pair (.pow (.var _ _) (.var _ _)) (.call (by decide +kernel) ?_))
    exact List.forall_mem_singleton.2 (.var _ _)
  have hvars : ∀ s ∈ powerAndCosine.vars, s ∈ [.ofName "x", .ofName "y", .ofName "x"] := by
    rw [powerAndCosine_eq]
    decide +kernel
  have hl : [(1 : Float), 2, 3].length = 3 := rfl
  obtain ⟨v, hv, hheap, -⟩ := compile_faithful he hs hvars hl
  have hop : Definition.operation? Builtin.cos.definition 1 = some (.unary .cos) := by
    decide +kernel
  rw [powerAndCosine_eq] at hv
  obtain ⟨_, hpow, hv⟩ := except_bind_eq_ok.1 hv
  obtain ⟨_, hcall, hv⟩ := except_bind_eq_ok.1 hv
  obtain ⟨xs, hxs, hcall⟩ := except_bind_eq_ok.1 hcall
  simp only [List.length_singleton, hop] at hcall
  cases hpow
  cases hxs
  cases hcall
  cases hv
  exact hheap

end Symbolic.CompileOptions
