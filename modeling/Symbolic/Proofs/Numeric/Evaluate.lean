import Symbolic.Numeric.Evaluate
import Symbolic.Proofs.Canonical.Shape
import Symbolic.Proofs.Expr.Variables

/-!
Values of expressions that call only functions defined from the start. Each such call is an
operation (`Direct`), so no body is looked into: the expression has a value wherever its variables
have values (`exists_evaluate`), and expressions that are equal in the order have the same value
(`evaluate_congr`).
-/

namespace Symbolic

namespace Valuation

variable {α : Type}

theorem get?_insert (vs : Valuation α) (s t : Symbol) (x : α) :
    (vs.insert t x).get? s = if t = s then some x else vs.get? s := by
  simp only [get?, insert, List.find?_cons]
  by_cases h : t = s
  · simp [h]
  · rw [List.find?_filter]
    have hp (p : Symbol × α) :
        decide (decide (p.1 ≠ t) = true ∧ decide (p.1 = s) = true) = decide (p.1 = s) := by
      by_cases hp : p.1 = s
      · simp [hp, Ne.symm h]
      · simp [hp]
    simp only [h, hp, decide_false, if_false]

theorem get?_insertAll (vs : Valuation α) (pairs : List (Symbol × α)) (s : Symbol) :
    (vs.insertAll pairs).get? s = (lookupLast s pairs).or (vs.get? s) := by
  induction pairs generalizing vs with
  | nil => rfl
  | cons p pairs ih =>
    obtain ⟨t, x⟩ := p
    rw [insertAll, List.foldl_cons, ← insertAll, ih, get?_insert, lookupLast]
    cases lookupLast s pairs with
    | some y => rfl
    | none =>
      by_cases h : t = s <;> simp [h]

theorem get?_ofList (pairs : List (Symbol × α)) (s : Symbol) :
    (ofList pairs).get? s = lookupLast s pairs := by
  rw [ofList, get?_insertAll]
  cases lookupLast s pairs <;> rfl

theorem get?_of_require {vs : Valuation α} {s : Symbol} {x : α} (h : vs.require s = .ok x) :
    vs.get? s = some x := by
  rw [require] at h
  split at h
  · next hs =>
    rw [hs, Except.ok.inj h]
  · cases h

end Valuation

theorem exists_lookupLast {α : Type} {s : Symbol} {pairs : List (Symbol × α)}
    (h : s ∈ pairs.map Prod.fst) : ∃ x, lookupLast s pairs = some x := by
  induction pairs with
  | nil => cases h
  | cons p pairs ih =>
    obtain ⟨t, x⟩ := p
    rw [lookupLast]
    cases hs : lookupLast s pairs with
    | some y => exact ⟨y, rfl⟩
    | none =>
      have ht : s = t := by
        rcases List.mem_cons.1 h with h | h
        · exact h
        · obtain ⟨y, hy⟩ := ih h
          rw [hs] at hy
          cases hy
      exact ⟨x, if_pos ht.symm⟩

theorem lookupLast_map {α β : Type} (f : α → β) (s : Symbol) (pairs : List (Symbol × α)) :
    lookupLast s (pairs.map fun p => (p.1, f p.2)) = (lookupLast s pairs).map f := by
  induction pairs with
  | nil => rfl
  | cons p pairs ih =>
    obtain ⟨t, x⟩ := p
    rw [List.map_cons, lookupLast, lookupLast, ih]
    cases lookupLast s pairs with
    | some y => rfl
    | none => by_cases h : t = s <;> simp [h]

namespace Expr

/-- All calls are of functions that are defined from the start. -/
inductive Standard : Expr → Prop where
  | const (c : Rat) : Standard (const c)
  | var (s : Symbol) (k : Site) : Standard (var s k)
  | sum {es : List Expr} : (∀ e ∈ es, Standard e) → Standard (sum es)
  | product {es : List Expr} : (∀ e ∈ es, Standard e) → Standard (product es)
  | pow {b p : Expr} : Standard b → Standard p → Standard (pow b p)
  | apply (f : Primitive) {e : Expr} : Standard e → Standard (apply f e)
  | call {f : String} {ps : List Symbol} {b : Expr} {es : List Expr} :
      Builtin.ofDefinition? ⟨f, ps, b⟩ ≠ none → (∀ e ∈ es, Standard e) →
        Standard (call f ps b es)

inductive Direct : Expr → Prop where
  | const (c : Rat) : Direct (const c)
  | var (s : Symbol) (k : Site) : Direct (var s k)
  | sum {es : List Expr} : (∀ e ∈ es, Direct e) → Direct (sum es)
  | product {es : List Expr} : (∀ e ∈ es, Direct e) → Direct (product es)
  | pow {b p : Expr} : Direct b → Direct p → Direct (pow b p)
  | apply (f : Primitive) {e : Expr} : Direct e → Direct (apply f e)
  | call {f : String} {ps : List Symbol} {b : Expr} {es : List Expr} {op : Operation} :
      Definition.operation? ⟨f, ps, b⟩ es.length = some op → (∀ e ∈ es, Direct e) →
        Direct (call f ps b es)

theorem arity_operation (b : Builtin) : b.operation.arity = b.definition.params.length := by
  cases b <;> rfl

/-- The operation takes as many operands as the function has parameters. -/
theorem arity_of_ofDefinition? {f : Definition} {b : Builtin} (h : Builtin.ofDefinition? f = some b) :
    b.operation.arity = f.params.length := by
  have hsame := (Option.filter_eq_some_iff.1 h).2
  simp only [Definition.same, Bool.and_eq_true, beq_iff_eq] at hsame
  rw [arity_operation, hsame.1.2]

/-- The operation of a function that is defined from the start, on as many arguments as the function
has parameters. -/
theorem exists_operation {f : Definition} {n : Nat} (hf : Builtin.ofDefinition? f ≠ none)
    (hn : n = f.params.length) : ∃ op, f.operation? n = some op := by
  obtain ⟨b, hb⟩ := Option.ne_none_iff_exists'.1 hf
  refine ⟨b.operation, ?_⟩
  rw [Definition.operation?, hb, Option.map_some, Option.filter_some, if_pos]
  rw [decide_eq_true_eq, arity_of_ofDefinition? hb, hn]

theorem Standard.direct {e : Expr} (h : Standard e) (hc : Canonical e) : Direct e := by
  induction h with
  | const c => exact .const c
  | var s k => exact .var s k
  | sum _ ih => exact .sum fun e he => ih e he (hc.operands e he)
  | product _ ih => exact .product fun e he => ih e he (hc.operands e he)
  | pow _ _ ihb ihp =>
    exact .pow (ihb (hc.operands _ (by simp [operands]))) (ihp (hc.operands _ (by simp [operands])))
  | apply f _ ih => exact .apply f (ih (hc.operands _ List.mem_cons_self))
  | call hf _ ih =>
    cases hc with
    | call hl _ hes =>
      obtain ⟨op, hop⟩ := exists_operation hf hl
      exact .call hop fun e he => ih e he (hes e he)

/-- An operation is that of a function that is defined from the start. -/
theorem exists_builtin_of_operation {f : Definition} {n : Nat} {op : Operation}
    (h : f.operation? n = some op) : ∃ b, Builtin.ofDefinition? f = some b ∧ op = b.operation := by
  rw [Definition.operation?, Option.filter_eq_some_iff, Option.map_eq_some_iff] at h
  obtain ⟨⟨b, hb, rfl⟩, _⟩ := h
  exact ⟨b, hb, rfl⟩

theorem operation_of_name {f : Definition} {n : Nat} {op : Operation}
    (h : f.operation? n = some op) :
    ∃ b, Builtin.ofName? f.name = some b ∧ op = b.operation := by
  obtain ⟨b, hb, hop⟩ := exists_builtin_of_operation h
  exact ⟨b, (Option.filter_eq_some_iff.1 hb).1, hop⟩

theorem arity_of_operation {f : Definition} {n : Nat} {op : Operation}
    (h : f.operation? n = some op) : op.arity = n := by
  simpa using (Option.filter_eq_some_iff.1 h).2

variable {α : Type} [Scalar α] {vs : Valuation α}

/-! Where the variables have values. -/

theorem exists_evaluateRest {es : List Expr} (h : ∀ e ∈ es, ∃ v, evaluate vs e = .ok v)
    (f : BinaryOp) (x : α) : ∃ y, evaluateRest vs f x es = .ok y := by
  induction es generalizing x with
  | nil => exact ⟨x, rfl⟩
  | cons e es ih =>
    obtain ⟨⟨v, hv⟩, hes⟩ := List.forall_mem_cons.1 h
    obtain ⟨y, hy⟩ := ih hes (Scalar.binary f x v)
    exact ⟨y, by rw [evaluateRest, hv]; exact hy⟩

theorem exists_evaluateAll {es : List Expr} (h : ∀ e ∈ es, ∃ v, evaluate vs e = .ok v) :
    ∃ xs, evaluateAll vs es = .ok xs := by
  induction es with
  | nil => exact ⟨[], rfl⟩
  | cons e es ih =>
    obtain ⟨⟨v, hv⟩, hes⟩ := List.forall_mem_cons.1 h
    obtain ⟨xs, hxs⟩ := ih hes
    exact ⟨v :: xs, by rw [evaluateAll, hv, hxs]; rfl⟩

theorem length_evaluateAll {es : List Expr} {xs : List α}
    (h : evaluateAll vs es = .ok xs) : xs.length = es.length := by
  induction es generalizing xs with
  | nil =>
    cases h
    rfl
  | cons e es ih =>
    obtain ⟨v, _, h⟩ := except_bind_eq_ok.1 h
    obtain ⟨ys, hys, h⟩ := except_bind_eq_ok.1 h
    cases h
    rw [List.length_cons, ih hys, List.length_cons]

/-- An expression has a value wherever its variables have. -/
theorem exists_evaluate {e : Expr} (h : Direct e)
    (hv : ∀ s ∈ e.occurrences, ∃ x, vs.get? s = some x) : ∃ v, evaluate vs e = .ok v := by
  induction h with
  | const c => exact ⟨_, rfl⟩
  | var s k =>
    obtain ⟨x, hx⟩ := hv s List.mem_cons_self
    exact ⟨x, by rw [evaluate, Valuation.require, hx]⟩
  | @sum es _ ih =>
    have hes : ∀ e ∈ es, ∃ v, evaluate vs e = .ok v :=
      fun e he => ih e he fun s hs => hv s (mem_occurrencesAll.2 ⟨e, he, hs⟩)
    match es, hes with
    | [], _ => exact ⟨_, rfl⟩
    | e :: es, hes =>
      obtain ⟨⟨v, hv⟩, hes⟩ := List.forall_mem_cons.1 hes
      obtain ⟨y, hy⟩ := exists_evaluateRest hes .add v
      exact ⟨y, by rw [evaluate, hv]; exact hy⟩
  | @product es _ ih =>
    have hes : ∀ e ∈ es, ∃ v, evaluate vs e = .ok v :=
      fun e he => ih e he fun s hs => hv s (mem_occurrencesAll.2 ⟨e, he, hs⟩)
    match es, hes with
    | [], _ => exact ⟨_, rfl⟩
    | e :: es, hes =>
      obtain ⟨⟨v, hv⟩, hes⟩ := List.forall_mem_cons.1 hes
      obtain ⟨y, hy⟩ := exists_evaluateRest hes .multiply v
      exact ⟨y, by rw [evaluate, hv]; exact hy⟩
  | pow _ _ ihb ihp =>
    obtain ⟨x, hx⟩ := ihb fun s hs => hv s (List.mem_append_left _ hs)
    obtain ⟨y, hy⟩ := ihp fun s hs => hv s (List.mem_append_right _ hs)
    exact ⟨_, by rw [evaluate, hx, hy]; rfl⟩
  | apply f _ ih =>
    obtain ⟨x, hx⟩ := ih hv
    exact ⟨_, by rw [evaluate, hx]; rfl⟩
  | @call f ps b es op hop _ ih =>
    have hes : ∀ e ∈ es, ∃ v, evaluate vs e = .ok v :=
      fun e he => ih e he fun s hs => hv s (mem_occurrencesAll.2 ⟨e, he, hs⟩)
    obtain ⟨xs, hxs⟩ := exists_evaluateAll hes
    refine ⟨op.value xs, ?_⟩
    rw [evaluate, hxs]
    simp only [hop]
    rfl

/-! Expressions that are equal in the order. -/

theorem evaluateRest_congr {as bs : List Expr}
    (h : List.Forall₂ (fun a b => evaluate vs a = evaluate vs b) as bs) (f : BinaryOp) (x : α) :
    evaluateRest vs f x as = evaluateRest vs f x bs := by
  induction h generalizing x with
  | nil => rfl
  | cons hab _ ih =>
    rw [evaluateRest, evaluateRest, hab]
    exact congrArg (_ >>= ·) (funext fun v => ih _)

theorem evaluateAll_congr {as bs : List Expr}
    (h : List.Forall₂ (fun a b => evaluate vs a = evaluate vs b) as bs) :
    evaluateAll vs as = evaluateAll vs bs := by
  induction h with
  | nil => rfl
  | cons hab _ ih => rw [evaluateAll, evaluateAll, hab, ih]

theorem evaluate_sum_congr {as bs : List Expr}
    (h : List.Forall₂ (fun a b => evaluate vs a = evaluate vs b) as bs) :
    evaluate vs (sum as) = evaluate vs (sum bs) ∧
      evaluate vs (product as) = evaluate vs (product bs) := by
  cases h with
  | nil => exact ⟨rfl, rfl⟩
  | cons hab ht =>
    rw [evaluate, evaluate, evaluate, evaluate, hab]
    exact ⟨congrArg (_ >>= ·) (funext fun v => evaluateRest_congr ht _ v),
      congrArg (_ >>= ·) (funext fun v => evaluateRest_congr ht _ v)⟩

/-- Expressions that are equal in the order have the same value. -/
theorem evaluate_congr {a b : Expr} (h : order a b = .eq) (ha : Direct a) (hb : Direct b) :
    evaluate vs a = evaluate vs b := by
  have hlist {as bs : List Expr}
      (h : List.Forall₂ (fun a b => Direct a → Direct b → evaluate vs a = evaluate vs b) as bs)
      (has : ∀ a ∈ as, Direct a) (hbs : ∀ b ∈ bs, Direct b) :
      List.Forall₂ (fun a b => evaluate vs a = evaluate vs b) as bs :=
    forall₂_imp_of_mem h fun a ha b hb hab => hab (has a ha) (hbs b hb)
  refine order_eq_induction
    (motive := fun a b => Direct a → Direct b → evaluate vs a = evaluate vs b) ?const ?var ?sum
    ?product ?pow ?apply ?call a b h ha hb
  case const => exact fun _ _ _ => rfl
  case var => exact fun s k l _ _ => by rw [evaluate, evaluate]
  case sum =>
    intro as bs h ha hb
    cases ha with
    | sum has =>
      cases hb with
      | sum hbs => exact (evaluate_sum_congr (hlist h has hbs)).1
  case product =>
    intro as bs h ha hb
    cases ha with
    | product has =>
      cases hb with
      | product hbs => exact (evaluate_sum_congr (hlist h has hbs)).2
  case pow =>
    intro b p b' p' hb hp h h'
    cases h with
    | pow hdb hdp =>
      cases h' with
      | pow hdb' hdp' => rw [evaluate, evaluate, hb hdb hdb', hp hdp hdp']
  case apply =>
    intro f a b hab ha hb
    cases ha with
    | apply _ ha =>
      cases hb with
      | apply _ hb => rw [evaluate, evaluate, hab ha hb]
  case call =>
    intro f ps qs d d' as bs h ha hb
    cases ha with
    | call hop has =>
      cases hb with
      | call hop' hbs =>
        -- the order does not look at the bodies, but the name alone gives the operation
        obtain ⟨b, hb, rfl⟩ := operation_of_name hop
        obtain ⟨b', hb', rfl⟩ := operation_of_name hop'
        obtain rfl : b = b' := Option.some.inj (hb.symm.trans hb')
        rw [evaluate, evaluate, evaluateAll_congr (hlist h has hbs)]
        simp only [hop, hop']

end Expr

end Symbolic
