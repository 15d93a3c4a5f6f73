import Symbolic.Proofs.Canonical.Constructors
import Symbolic.Proofs.Grammar.Closed
import Symbolic.Proofs.Pattern.Closed

/-!
Every expression that can be had is canonical. `Constructible` says what can be had: leaves, what
the constructors and calls make of it, operands and bodies of it, and what comes out of new operands,
replacement, expansion, reading, matching and rewriting.

All of these keep what the constructors and calls keep (`Constructible.holds`), and being canonical
is such a property (`closed_canonical`).
-/

namespace Symbolic

/-- The expressions that a finite number of operations lead to. -/
inductive Constructible : Expr → Prop where
  | const (c : Rat) : Constructible (.const c)
  | var (s : Symbol) (k : Site) : Constructible (.var s k)
  | sum {es : List Expr} : (∀ e ∈ es, Constructible e) → Constructible (.sumOf es)
  | product {es : List Expr} : (∀ e ∈ es, Constructible e) → Constructible (.productOf es)
  | pow {b p : Expr} : Constructible b → Constructible p → Constructible (.powOf b p)
  | apply (f : Primitive) {e : Expr} : Constructible e → Constructible (.applyOf f e)
  | call {f : Definition} {es : List Expr} {e : Expr} : Constructible f.body →
      (∀ d ∈ es, Constructible d) → f.apply es = .ok e → Constructible e
  | operand {e d : Expr} : Constructible e → d ∈ e.operands → Constructible d
  | body {e : Expr} {f : Definition} : Constructible e → e.definition? = some f →
      Constructible f.body
  | withOperands {e : Expr} {ds : List Expr} : Constructible e → (∀ d ∈ ds, Constructible d) →
      Constructible (e.withOperands ds)
  | substitute {e : Expr} {σ : Symbol → Option Expr} : Constructible e →
      (∀ s r, σ s = some r → Constructible r) → Constructible (e.substitute σ)
  | atomic {e : Expr} : Constructible e → Constructible e.atomic
  | parse {v : Vocabulary} {s : String} {e : Expr} : (∀ f ∈ v.functions, Constructible f.body) →
      v.parse s = .ok e → Constructible e
  | matched {p : Pattern} {e d : Expr} {a : Assignment} {s : Symbol} : Constructible p.expr →
      Constructible e → a ∈ (p.matches? e).results → a.get? s = some d → Constructible d
  | rule {r : Rule} {e d : Expr} : Constructible r.pattern.expr → Constructible r.replacement →
      Constructible e → d ∈ r.apply e → Constructible d

/-- What the constructors and calls keep holds of every expression that can be had. -/
theorem Constructible.holds {P : Expr → Prop} (h : Closed P) {e : Expr} (he : Constructible e) :
    P e := by
  induction he with
  | const c => exact h.const c
  | var s k => exact h.var s k
  | sum _ ih => exact h.sum ih
  | product _ ih => exact h.product ih
  | pow _ _ ihb ihp => exact h.pow ihb ihp
  | apply f _ ih => exact h.apply f ih
  | call _ _ hf ihb ih => exact h.definition_apply ihb ih hf
  | operand _ hd ih => exact h.operands ih _ hd
  | body _ hf ih =>
    obtain ⟨g, ps, b, es, rfl, rfl⟩ := Expr.definition?_eq_some hf
    exact (h.body ih).2
  | withOperands _ _ ih ihs => exact h.withOperands ih ihs
  | substitute _ _ ih ihσ => exact h.substitute ihσ ih
  | atomic _ ih => exact h.atomic ih
  | parse _ hp ih => exact h.parse ih hp
  | matched _ _ ha hd _ ih => exact (h.matched _ ih _ ha).get? hd
  | rule _ _ _ hd _ ihr ih => exact h.rule ihr ih _ hd

/-- Calls as they stand, too, on as many arguments as there are parameters. -/
theorem Constructible.callOf {f : String} {ps : List Symbol} {b : Expr} {es : List Expr}
    (hl : es.length = ps.length) (hb : Constructible b) (hes : ∀ e ∈ es, Constructible e) :
    Constructible (.call f ps b es) :=
  .call (f := ⟨f, ps, b⟩) hb hes (if_pos hl)

namespace Expr

theorem canonical_applyOf (f : Primitive) {e : Expr} (he : Canonical e) :
    Canonical (applyOf f e) := by
  unfold applyOf
  split
  · next c =>
    split
    · exact .const 0
    · next h1 =>
      refine .apply ⟨fun _ h => h1 (const.inj h), ?_, ?_, ?_⟩ he
      all_goals simp
  · exact .const _
  · exact he
  · next c hln hsign =>
    split
    · exact .const 0
    · next h0 =>
      refine .apply ⟨fun h => (hln h).elim, fun _ h => h0 (const.inj h), fun h => (hsign h).elim,
        fun h => (hsign h).elim⟩ he
  · next hconst _ _ hsign =>
    refine .apply ⟨fun _ => hconst 1, fun _ => hconst 0, fun _ => ?_, fun h d => hsign d h⟩ he
    -- the sign of a constant was folded before
    by_contra hc
    obtain ⟨c, rfl⟩ := isConst_eq_true.1 (Bool.not_eq_false _ ▸ hc)
    exact hconst c rfl

/-- The operations keep canonical form. -/
theorem closed_canonical : Closed Canonical where
  const := .const
  var := .var
  sum h := (sumOf_spec h).canonical
  product h := (productOf_spec h).canonical
  pow hb hp := (powOf_spec hb hp).canonical
  apply := canonical_applyOf
  callAgain h hl hes := by
    cases h
    exact .call hl (by assumption) hes
  call := .call
  operands h := h.operands
  body h := by
    cases h
    exact ⟨by assumption, by assumption⟩

theorem closed_constructible : Closed Constructible where
  const := .const
  var := .var
  sum := .sum
  product := .product
  pow := .pow
  apply f _ := .apply f
  callAgain h hl := .callOf hl (h.body rfl)
  call := .callOf
  operands h _ := .operand h
  body h := by
    cases h.holds closed_canonical with
    | call hl _ _ => exact ⟨hl, h.body rfl⟩

/-- Every expression that can be had is canonical at every node. -/
theorem constructible_canonical {e : Expr} (h : Constructible e) : Canonical e :=
  h.holds closed_canonical

/-- Two thirds of a square and a sum with like terms. -/
theorem constructible_canonical_product :
    Canonical (productOf [const (2 / 3), powOf (ofName "x") (const 2),
      sumOf [ofName "x", ofName "y", ofName "x"]]) := by
  have hx : Constructible (ofName "x") := .var _ _
  have hy : Constructible (ofName "y") := .var _ _
  refine constructible_canonical (.product ?_)
  intro e he
  simp only [List.mem_cons, List.not_mem_nil, or_false] at he
  rcases he with rfl | rfl | rfl
  · exact .const _
  · exact .pow hx (.const _)
  · refine .sum fun d hd => ?_
    simp only [List.mem_cons, List.not_mem_nil, or_false] at hd
    rcases hd with rfl | rfl | rfl
    · exact hx
    · exact hy
    · exact hx

end Expr

end Symbolic
