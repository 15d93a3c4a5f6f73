import Symbolic.Program.Compile
import Symbolic.Proofs.Numeric.Evaluate

/-!
Stack code computes the value of an expression. `Turns` says what a piece of linking adds to the
code: instructions that turn some values on top of any stack into others. Pieces are put together by
`Turns.bind`. The only fault is a stack that would get too deep.
-/

namespace Symbolic

variable {α : Type} [Scalar α]

/-- The places of the parameters lead to the values of the variables. -/
def Agrees (index : Symbol → Option Nat) (params : Array α) (vs : Valuation α) : Prop :=
  ∀ s x, vs.get? s = some x → ∃ i, index s = some i ∧ parameterValue params i = x

theorem zip_eq_map_zipIdx {ps : List Symbol} {xs : List α} (hl : xs.length = ps.length) :
    ps.zip xs = ps.zipIdx.map fun p => (p.1, parameterValue xs.toArray p.2) := by
  apply List.ext_getElem
  · simp [hl]
  · intro i h₁ h₂
    have hi : i < xs.length := by
      simp at h₁
      omega
    simp [parameterValue, hi]

/-- A parameter that is named twice has the later of its places, and its later value. -/
theorem agrees_ofList {ps : List Symbol} {xs : List α} (hl : xs.length = ps.length) :
    Agrees (fun s => lookupLast s ps.zipIdx) xs.toArray (Valuation.ofList (ps.zip xs)) := by
  intro s x h
  rw [Valuation.get?_ofList, zip_eq_map_zipIdx hl, lookupLast_map, Option.map_eq_some_iff] at h
  exact h

namespace StackCode

/-- The result `r` of linking to the draft `d` adds code that turns the values `before` on top of
any stack into `after`, or fails for want of depth. -/
def Turns (params : Array α) (d : Draft) (r : Except Error Draft) (before after : List α) : Prop :=
  (∃ d' ops, r = .ok d' ∧ d'.code.toList = d.code.toList ++ ops ∧
      ∀ stack, ops.foldl (step params) (before ++ stack) = after ++ stack) ∨
    ∃ n, r = .error (.stackTooDeep n maxStackDepth)

variable {params : Array α} {d : Draft}

theorem Turns.refl (xs : List α) : Turns params d (.ok d) xs xs :=
  .inl ⟨d, [], rfl, (List.append_nil _).symm, fun _ => rfl⟩

theorem Turns.bind {r : Except Error Draft} {f : Draft → Except Error Draft} {xs ys zs : List α}
    (hr : Turns params d r xs ys) (hf : ∀ d', Turns params d' (f d') ys zs) :
    Turns params d (r >>= f) xs zs := by
  rcases hr with ⟨d', ops, rfl, hcode, hrun⟩ | ⟨n, rfl⟩
  · rcases hf d' with ⟨d'', ops', hd, hcode', hrun'⟩ | ⟨n, hd⟩
    · refine .inl ⟨d'', ops ++ ops', hd, by rw [hcode', hcode, List.append_assoc], fun stack => ?_⟩
      rw [List.foldl_append, hrun, hrun']
    · exact .inr ⟨n, hd⟩
  · exact .inr ⟨n, rfl⟩

theorem Turns.frame {r : Except Error Draft} {xs ys : List α} (h : Turns params d r xs ys)
    (below : List α) : Turns params d r (xs ++ below) (ys ++ below) := by
  rcases h with ⟨d', ops, hr, hcode, hrun⟩ | h
  · refine .inl ⟨d', ops, hr, hcode, fun stack => ?_⟩
    rw [List.append_assoc, hrun, List.append_assoc]
  · exact .inr h

theorem turns_push (op : StackOp) {x : α} (h : ∀ stack, step params stack op = x :: stack) :
    Turns params d (d.push op) [] [x] := by
  rw [Draft.push]
  split
  · exact .inl ⟨_, [op], rfl, by simp, h⟩
  · exact .inr ⟨_, rfl⟩

variable {index : Symbol → Option Nat} {vs : Valuation α}

theorem turns_constant (c : Rat) :
    Turns params d (d.link index (.constant c)) [] [Scalar.ofRat c] :=
  turns_push _ fun _ => rfl

theorem turns_unary (f : UnaryOp) (x : α) :
    Turns params d (d.link index (.unary f)) [x] [Scalar.unary f x] :=
  .inl ⟨_, [.unary f], rfl, by simp, fun _ => rfl⟩

theorem turns_binary (f : BinaryOp) (x y : α) :
    Turns params d (d.link index (.binary f)) [y, x] [Scalar.binary f x y] :=
  .inl ⟨_, [.binary f], rfl, by simp, fun _ => rfl⟩

theorem turns_operation (op : Operation) {xs : List α} (hl : op.arity = xs.length) :
    Turns params d (d.link index op.toPostfix) xs.reverse [op.value xs] := by
  cases op with
  | unary f =>
    match xs, hl with
    | [x], _ => exact turns_unary f x
  | binary f =>
    match xs, hl with
    | [x, y], _ => exact turns_binary f x y

variable {again : Expr → Draft → Except Error Draft}

/-- Each element of a list pushes its value. -/
def Pushes (params : Array α) (index : Symbol → Option Nat)
    (again : Expr → Draft → Except Error Draft) (vs : Valuation α) (e : Expr) : Prop :=
  ∀ d v, e.evaluate vs = .ok v → Turns params d (e.linkWith index again d) [] [v]

theorem turns_rest {es : List Expr} (h : ∀ e ∈ es, Pushes params index again vs e) (f : BinaryOp)
    {x y : α} (hy : Expr.evaluateRest vs f x es = .ok y) :
    Turns params d (Expr.linkRest index again f es d) [x] [y] := by
  induction es generalizing x d with
  | nil =>
    cases hy
    exact .refl [y]
  | cons e es ih =>
    obtain ⟨he, hes⟩ := List.forall_mem_cons.1 h
    obtain ⟨v, hv, hy⟩ := except_bind_eq_ok.1 hy
    exact ((he d v hv).frame [x]).bind fun d => (turns_binary f x v).bind fun d => ih hes hy

theorem turns_all {es : List Expr} (h : ∀ e ∈ es, Pushes params index again vs e) {xs : List α}
    (hxs : Expr.evaluateAll vs es = .ok xs) :
    Turns params d (Expr.linkAll index again es d) [] xs.reverse := by
  induction es generalizing xs d with
  | nil =>
    cases hxs
    exact .refl []
  | cons e es ih =>
    obtain ⟨he, hes⟩ := List.forall_mem_cons.1 h
    obtain ⟨v, hv, hxs⟩ := except_bind_eq_ok.1 hxs
    obtain ⟨ys, hys, hxs⟩ := except_bind_eq_ok.1 hxs
    cases hxs
    rw [List.reverse_cons]
    exact (he d v hv).bind fun d => (ih hes hys).frame [v]

/-- The code of an expression pushes its value; a sum or product has operands. -/
theorem pushes (hi : Agrees index params vs) {e : Expr} (he : e.Direct) (hc : e.Canonical) :
    Pushes params index again vs e := by
  induction he with
  | const c =>
    intro d v hv
    cases hv
    exact turns_constant c
  | var s k =>
    intro d v hv
    obtain ⟨i, hs, hp⟩ := hi s v (Valuation.get?_of_require hv)
    rw [Expr.linkWith, Draft.link, hs]
    exact turns_push _ fun stack => by rw [step, hp]
  | sum _ ih =>
    intro d v hv
    obtain ⟨e, e', es, rfl⟩ := exists_cons_cons_of_two_le hc.sum_shape.two_le
    obtain ⟨he, hes⟩ := List.forall_mem_cons.1 fun e he => ih e he (hc.operands e he)
    obtain ⟨x, hx, hv⟩ := except_bind_eq_ok.1 hv
    exact (he d x hx).bind fun d => turns_rest hes .add hv
  | product _ ih =>
    intro d v hv
    obtain ⟨e, e', es, rfl⟩ := exists_cons_cons_of_two_le hc.product_shape.two_le
    obtain ⟨he, hes⟩ := List.forall_mem_cons.1 fun e he => ih e he (hc.operands e he)
    obtain ⟨x, hx, hv⟩ := except_bind_eq_ok.1 hv
    exact (he d x hx).bind fun d => turns_rest hes .multiply hv
  | @pow b p _ _ ihb ihp =>
    intro d v hv
    have ihb := ihb (hc.operands b (by simp [Expr.operands]))
    have ihp := ihp (hc.operands p (by simp [Expr.operands]))
    obtain ⟨x, hx, hv⟩ := except_bind_eq_ok.1 hv
    obtain ⟨y, hy, hv⟩ := except_bind_eq_ok.1 hv
    cases hv
    exact (ihb d x hx).bind fun d => ((ihp d y hy).frame [x]).bind fun d => turns_binary .power x y
  | apply f _ ih =>
    intro d v hv
    obtain ⟨x, hx, hv⟩ := except_bind_eq_ok.1 hv
    cases hv
    exact (ih (hc.operands _ List.mem_cons_self) d x hx).bind fun d => turns_unary f.operation x
  | @call f ps b es op hop _ ih =>
    intro d v hv
    obtain ⟨xs, hxs, hv⟩ := except_bind_eq_ok.1 hv
    rw [hop] at hv
    cases hv
    have ih := fun e he => ih e he (hc.operands e he)
    have harity := Expr.arity_of_operation hop
    obtain ⟨p, hp, rfl⟩ := Expr.exists_builtin_of_operation hop
    -- the call is an operation, so its body is not linked
    rw [Expr.linkWith, hp]
    refine (turns_all ih hxs).bind fun d => turns_operation p.operation ?_
    rw [Expr.length_evaluateAll hxs]
    exact harity

/-- The stack code of an expression gives its value, unless the stack would get too deep. -/
theorem ofExpr_spec (hi : Agrees index params vs) {e : Expr} (he : e.Direct) (hc : e.Canonical)
    {v : α} (hv : e.evaluate vs = .ok v) :
    (∃ c, ofExpr index e = .ok c ∧ c.run params = v) ∨
      ∃ n, ofExpr index e = .error (.stackTooDeep n maxStackDepth) := by
  have hpush : Pushes params index (Expr.linkWithin index e.nesting) vs e := pushes hi he hc
  rcases hpush .empty v hv with ⟨d, ops, hd, hcode, hrun⟩ | ⟨n, hd⟩
  · refine .inl ⟨d.finish, ?_, ?_⟩
    · rw [ofExpr, Expr.linkWithin, hd]
      rfl
    · have hfinish : d.finish.code = ops := hcode
      have hrun := hrun []
      rw [List.nil_append] at hrun
      rw [run, runOn, hfinish, hrun]
      rfl
  · refine .inr ⟨n, ?_⟩
    rw [ofExpr, Expr.linkWithin, hd]
    rfl

end StackCode

end Symbolic
