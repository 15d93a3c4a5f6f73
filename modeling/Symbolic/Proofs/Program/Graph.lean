import Symbolic.Program.Graph
import Symbolic.Proofs.Expr.Alike
import Symbolic.Proofs.Program.Allocation
import Symbolic.Proofs.Program.Stack

/-!
Graph code computes the value of an expression. In a graph that is `Sound` the place of a part holds
the value of every expression that is equal to it, so a part can be shared. `Writes` says what a
piece of lowering adds to a graph; pieces are put together by `Writes.bind`.
-/

namespace Symbolic

variable {α : Type} [Scalar α]

namespace Graph

variable {params : Array α} {vs : Valuation α} {g : Graph}

def Holds (params : Array α) (g : Graph) (i : Nat) (x : α) : Prop :=
  (results params g.code.toList)[i]? = some x

/-- Instructions take earlier results, and the place of a part holds its value. -/
structure Sound (params : Array α) (vs : Valuation α) (g : Graph) : Prop where
  forward : Forward g.code.toList
  known : ∀ e i x, e.Canonical → e.Direct → g.places.get? e = some i → e.evaluate vs = .ok x →
    g.Holds params i x

/-- The code of one graph goes on with that of another. -/
def Grows (g g' : Graph) : Prop := g.code.toList <+: g'.code.toList

theorem Holds.grows {g' : Graph} {i : Nat} {x : α} (h : g.Holds params i x) (hg : g.Grows g') :
    g'.Holds params i x := by
  obtain ⟨added, hr⟩ := results_prefix params hg
  rw [Holds, ← hr, List.getElem?_append_left (List.getElem?_eq_some_iff.1 h).1]
  exact h

theorem Holds.lt {i : Nat} {x : α} (h : g.Holds params i x) : i < g.code.toList.length := by
  rw [← length_results params]
  exact (List.getElem?_eq_some_iff.1 h).1

/-- A piece of lowering succeeds; it adds to the code, and its result is as said. -/
def Writes {β : Type} (params : Array α) (vs : Valuation α) (g : Graph)
    (r : Except Error (β × Graph)) (Q : β → Graph → Prop) : Prop :=
  ∃ b g', r = .ok (b, g') ∧ g.Grows g' ∧ g'.Sound params vs ∧ Q b g'

variable {β γ : Type} {Q : β → Graph → Prop} {R : γ → Graph → Prop}

theorem Writes.ok (hg : g.Sound params vs) {b : β} (hq : Q b g) :
    Writes params vs g (.ok (b, g)) Q :=
  ⟨b, g, rfl, List.prefix_refl _, hg, hq⟩

theorem Writes.bind {r : Except Error (β × Graph)} {f : β × Graph → Except Error (γ × Graph)}
    (hr : Writes params vs g r Q)
    (hf : ∀ b g', g.Grows g' → g'.Sound params vs → Q b g' → Writes params vs g' (f (b, g')) R) :
    Writes params vs g (r >>= f) R := by
  obtain ⟨b, g', rfl, hgrow, hsound, hq⟩ := hr
  obtain ⟨c, g'', hc, hgrow', hsound', hr'⟩ := hf b g' hgrow hsound hq
  exact ⟨c, g'', hc, hgrow.trans hgrow', hsound', hr'⟩

theorem Writes.imp {r : Except Error (β × Graph)} {Q' : β → Graph → Prop}
    (hr : Writes params vs g r Q) (h : ∀ b g', Q b g' → Q' b g') : Writes params vs g r Q' := by
  obtain ⟨b, g', hb, hgrow, hsound, hq⟩ := hr
  exact ⟨b, g', hb, hgrow, hsound, h b g' hq⟩

/-- The place of a result that has just been written. -/
def Last (params : Array α) (x : α) (i : Nat) (g : Graph) : Prop :=
  g.Holds params i x ∧ i + 1 = g.code.size

theorem writes_emit (hg : g.Sound params vs) {x : Instruction}
    (hx : ∀ j ∈ x.inputs, j < g.code.toList.length) {v : α}
    (hv : x.value params (results params g.code.toList) = v) :
    Writes params vs g (.ok (g.emit x)) (Last params v) := by
  have hcode : (g.emit x).2.code.toList = g.code.toList ++ [x] := Array.toList_push
  have hgrow : g.Grows (g.emit x).2 := by
    rw [Grows, hcode]
    exact List.prefix_append _ _
  refine ⟨g.code.size, (g.emit x).2, rfl, hgrow, ⟨?_, ?_⟩, ?_, ?_⟩
  · rw [hcode]
    exact hg.forward.concat hx
  · exact fun e i y hc hd hi hy => (hg.known e i y hc hd hi hy).grows hgrow
  · rw [Holds, hcode, results_concat, ← Array.length_toList, ← length_results params,
      List.getElem?_concat_length, hv]
  · exact (Array.size_push _).symm

theorem writes_constant (hg : g.Sound params vs) (c : Rat) :
    Writes params vs g (.ok (g.emit (.constant c))) (Last params (Scalar.ofRat c)) :=
  writes_emit hg (fun j hj => by cases hj) rfl

theorem writes_parameter (hg : g.Sound params vs) {i : Nat} {x : α}
    (hx : parameterValue params i = x) :
    Writes params vs g (.ok (g.emit (.parameter i))) (Last params x) :=
  writes_emit hg (fun j hj => by cases hj) hx

theorem writes_unary (hg : g.Sound params vs) (f : UnaryOp) {a : Nat} {x : α}
    (ha : g.Holds params a x) :
    Writes params vs g (.ok (g.emit (.unary f a))) (Last params (Scalar.unary f x)) := by
  refine writes_emit hg (fun j hj => ?_) ?_
  · rw [List.mem_singleton.1 hj]
    exact ha.lt
  · rw [Instruction.value, ha, Option.getD_some]

theorem writes_binary (hg : g.Sound params vs) (f : BinaryOp) {a b : Nat} {x y : α}
    (ha : g.Holds params a x) (hb : g.Holds params b y) :
    Writes params vs g (.ok (g.emit (.binary f a b))) (Last params (Scalar.binary f x y)) := by
  refine writes_emit hg (fun j hj => ?_) ?_
  · rcases List.mem_pair.1 hj with rfl | rfl
    · exact ha.lt
    · exact hb.lt
  · rw [Instruction.value, ha, hb, Option.getD_some, Option.getD_some]

def HoldsAll (params : Array α) (xs : List α) (is : List Nat) (g : Graph) : Prop :=
  List.Forall₂ (g.Holds params) is xs

theorem writes_builtin (hg : g.Sound params vs) (f : Builtin) {is : List Nat} {xs : List α}
    (h : HoldsAll params xs is g) (hl : f.operation.arity = xs.length) :
    Writes params vs g (f.emit is g) (Last params (f.operation.value xs)) := by
  unfold Builtin.emit
  generalize f.operation = op at hl ⊢
  cases op with
  | unary op =>
    match xs, hl with
    | [x], _ =>
      obtain ⟨i, _, hi, hnil, rfl⟩ := List.forall₂_cons_right_iff.1 h
      rw [List.forall₂_nil_right_iff.1 hnil]
      exact writes_unary hg op hi
  | binary op =>
    match xs, hl with
    | [x, y], _ =>
      obtain ⟨i, _, hi, hrest, rfl⟩ := List.forall₂_cons_right_iff.1 h
      obtain ⟨j, _, hj, hnil, rfl⟩ := List.forall₂_cons_right_iff.1 hrest
      rw [List.forall₂_nil_right_iff.1 hnil]
      exact writes_binary hg op hi hj

theorem Sound.note (hg : g.Sound params vs) {e : Expr} (hc : e.Canonical) (hd : e.Direct) {x : α}
    (hx : e.evaluate vs = .ok x) {i : Nat} (hi : g.Holds params i x) :
    (g.note e i).Sound params vs := by
  refine ⟨hg.forward, fun d j y hdc hdd hj hy => ?_⟩
  rw [Graph.note, Table.get?_insert] at hj
  split at hj
  · next h =>
    cases hj
    -- equal expressions that are sorted are equal in the order, and have one value
    rw [Expr.evaluate_congr (Expr.order_eq_of_alike h hdc hc) hdd hd, hx] at hy
    cases hy
    exact hi
  · exact hg.known d j y hdc hdd hj hy

end Graph

open Symbolic.Graph

namespace Expr

variable {params : Array α} {index : Symbol → Option Nat} {vs : Valuation α}
  {again : Expr → Graph → Except Error (Nat × Graph)}

/-- An expression is written out; if it is new to the graph, its instruction is the last. -/
def Lowers (params : Array α) (vs : Valuation α) (index : Symbol → Option Nat)
    (again : Expr → Graph → Except Error (Nat × Graph)) (e : Expr) : Prop :=
  ∀ g x, e.evaluate vs = .ok x → g.Sound params vs →
    Writes params vs g (lowerWith index again e g) fun i g' =>
      g'.Holds params i x ∧ (g.places.get? e = none → i + 1 = g'.code.size)

theorem writes_rest {es : List Expr} (h : ∀ e ∈ es, Lowers params vs index again e) (f : BinaryOp)
    {g : Graph} (hg : g.Sound params vs) {a : Nat} {x y : α} (ha : g.Holds params a x)
    (hy : evaluateRest vs f x es = .ok y) :
    Writes params vs g (lowerRest index again f a es g) fun i g' =>
      g'.Holds params i y ∧ (es ≠ [] ∨ a + 1 = g.code.size → i + 1 = g'.code.size) := by
  induction es generalizing x a g with
  | nil =>
    cases hy
    exact .ok hg ⟨ha, fun hn => hn.resolve_left fun hn => hn rfl⟩
  | cons e es ih =>
    obtain ⟨he, hes⟩ := List.forall_mem_cons.1 h
    obtain ⟨v, hv, hy⟩ := except_bind_eq_ok.1 hy
    refine (he g v hv hg).bind fun b g₁ hgrow hg₁ ⟨hb, _⟩ => ?_
    refine (writes_binary hg₁ f (ha.grows hgrow) hb).bind
      (f := fun p => lowerRest index again f p.1 es p.2) fun c g₂ _ hg₂ ⟨hc, hlast⟩ => ?_
    exact (ih hes hg₂ hc hy).imp fun i g' ⟨hi, hsize⟩ => ⟨hi, fun _ => hsize (.inr hlast)⟩

/-- Where there is something to join, the last instruction gives the result. -/
theorem writes_joined {e : Expr} {es : List Expr}
    (h : ∀ d ∈ e :: es, Lowers params vs index again d) (f : BinaryOp) {g : Graph}
    (hg : g.Sound params vs) {a : Nat} {x y : α} (ha : g.Holds params a x)
    (hy : evaluateRest vs f x (e :: es) = .ok y) :
    Writes params vs g (lowerRest index again f a (e :: es) g) (Last params y) := by
  refine (writes_rest h f hg ha hy).imp fun i g' hwritten => ?_
  exact ⟨hwritten.1, hwritten.2 (.inl (List.cons_ne_nil e es))⟩

theorem writes_all {es : List Expr} (h : ∀ e ∈ es, Lowers params vs index again e) {g : Graph}
    (hg : g.Sound params vs) {xs : List α} (hxs : evaluateAll vs es = .ok xs) :
    Writes params vs g (lowerAll index again es g) (HoldsAll params xs) := by
  induction es generalizing xs g with
  | nil =>
    cases hxs
    exact .ok hg .nil
  | cons e es ih =>
    obtain ⟨he, hes⟩ := List.forall_mem_cons.1 h
    obtain ⟨v, hv, hxs⟩ := except_bind_eq_ok.1 hxs
    obtain ⟨ys, hys, hxs⟩ := except_bind_eq_ok.1 hxs
    cases hxs
    refine (he g v hv hg).bind fun i g₁ _ hg₁ ⟨hi, _⟩ => ?_
    exact (ih hes hg₁ hys).bind fun is g₂ hgrow hg₂ his => .ok hg₂ (.cons (hi.grows hgrow) his)

theorem noted {e : Expr} (hc : e.Canonical) (hd : e.Direct) {x : α} (hx : e.evaluate vs = .ok x)
    {g : Graph} {r : Except Error (Nat × Graph)} (hr : Writes params vs g r (Last params x)) :
    Writes params vs g (r >>= fun p => .ok (p.1, p.2.note e p.1)) (Last params x) := by
  obtain ⟨i, g', rfl, hgrow, hg', hi, hlast⟩ := hr
  exact ⟨i, g'.note e i, rfl, hgrow, hg'.note hc hd hx hi, hi, hlast⟩

theorem lowers_of_new {e : Expr} (hc : e.Canonical) (hd : e.Direct)
    (h : ∀ g x, e.evaluate vs = .ok x → g.Sound params vs → g.places.get? e = none →
      Writes params vs g (lowerWith index again e g) (Last params x)) :
    Lowers params vs index again e := by
  intro g x hx hg
  cases hi : g.places.get? e with
  | some i =>
    -- what is known is not written out again
    have heq : lowerWith index again e g = .ok (i, g) := by
      rw [lowerWith.eq_def, hi]
    rw [heq]
    exact .ok hg ⟨hg.known e i x hc hd hi hx, fun hn => by cases hn⟩
  | none => exact (h g x hx hg hi).imp fun i g' ⟨hi, hlast⟩ => ⟨hi, fun _ => hlast⟩

/-- Canonical expressions whose calls are operations are written out. -/
theorem lowers (hindex : Agrees index params vs) {e : Expr} (hd : e.Direct) (hc : e.Canonical) :
    Lowers params vs index again e := by
  induction hd with
  | const c =>
    refine lowers_of_new hc (.const c) fun g x hx hg hi => ?_
    obtain rfl := Except.ok.inj hx
    rw [lowerWith, hi]
    exact noted hc (.const c) hx (writes_constant hg c)
  | var s k =>
    refine lowers_of_new hc (.var s k) fun g x hx hg hi => ?_
    obtain ⟨i, hs, hp⟩ := hindex s x (Valuation.get?_of_require hx)
    rw [lowerWith, hi]
    simp only [hs]
    exact noted hc (.var s k) hx (writes_parameter hg hp)
  | @sum es hes ih =>
    refine lowers_of_new hc (.sum hes) fun g x hx hg hi => ?_
    obtain ⟨d, d', ds, rfl⟩ := exists_cons_cons_of_two_le hc.sum_shape.two_le
    obtain ⟨hd, hds⟩ := List.forall_mem_cons.1 fun e he => ih e he (hc.operands e he)
    obtain ⟨y, hy, hrest⟩ := except_bind_eq_ok.1 hx
    rw [lowerWith, hi]
    refine (hd g y hy hg).bind fun a g₁ _ hg₁ ha => noted hc (.sum hes) hx ?_
    exact writes_joined hds .add hg₁ ha.1 hrest
  | @product es hes ih =>
    refine lowers_of_new hc (.product hes) fun g x hx hg hi => ?_
    obtain ⟨d, d', ds, rfl⟩ := exists_cons_cons_of_two_le hc.product_shape.two_le
    obtain ⟨hd, hds⟩ := List.forall_mem_cons.1 fun e he => ih e he (hc.operands e he)
    obtain ⟨y, hy, hrest⟩ := except_bind_eq_ok.1 hx
    rw [lowerWith, hi]
    refine (hd g y hy hg).bind fun a g₁ _ hg₁ ha => noted hc (.product hes) hx ?_
    exact writes_joined hds .multiply hg₁ ha.1 hrest
  | @pow b p hb hp ihb ihp =>
    refine lowers_of_new hc (.pow hb hp) fun g x hx hg hi => ?_
    obtain ⟨y, hy, hrest⟩ := except_bind_eq_ok.1 hx
    obtain ⟨z, hz, hrest⟩ := except_bind_eq_ok.1 hrest
    obtain rfl := Except.ok.inj hrest
    have ihb := ihb (hc.operands b (by simp [operands]))
    have ihp := ihp (hc.operands p (by simp [operands]))
    rw [lowerWith, hi]
    refine (ihb g y hy hg).bind fun i g₁ _ hg₁ hi => ?_
    refine (ihp g₁ z hz hg₁).bind fun j g₂ hgrow hg₂ hj => noted hc (.pow hb hp) hx ?_
    exact writes_binary hg₂ .power (hi.1.grows hgrow) hj.1
  | @apply f e he ih =>
    refine lowers_of_new hc (.apply f he) fun g x hx hg hi => ?_
    obtain ⟨y, hy, hrest⟩ := except_bind_eq_ok.1 hx
    obtain rfl := Except.ok.inj hrest
    have ih := ih (hc.operands e List.mem_cons_self)
    rw [lowerWith, hi]
    refine (ih g y hy hg).bind fun a g₁ _ hg₁ ha => noted hc (.apply f he) hx ?_
    exact writes_unary hg₁ f.operation ha.1
  | @call f ps b es op hop hes ih =>
    refine lowers_of_new hc (.call hop hes) fun g x hx hg hi => ?_
    have ih : ∀ e ∈ es, Lowers params vs index again e := fun e he => ih e he (hc.operands e he)
    obtain ⟨xs, hxs, hrest⟩ := except_bind_eq_ok.1 hx
    rw [hop] at hrest
    obtain rfl := Except.ok.inj hrest
    have harity := arity_of_operation hop
    obtain ⟨p, hp, rfl⟩ := exists_builtin_of_operation hop
    rw [lowerWith, hi]
    simp only [hp]
    refine (writes_all ih hg hxs).bind fun is g₁ _ hg₁ his => noted hc (.call hop hes) hx ?_
    refine writes_builtin hg₁ p his ?_
    rw [length_evaluateAll hxs]
    exact harity

end Expr

theorem Graph.sound_empty (params : Array α) (vs : Valuation α) : Graph.empty.Sound params vs where
  forward i x hx := by cases hx
  known e i x _ _ hi _ := by
    rw [empty, Table.get?_empty] at hi
    cases hi

/-- The graph code of an expression gives its value, in cells with any contents. -/
theorem GraphCode.ofExpr_spec {params : Array α} {index : Symbol → Option Nat} {vs : Valuation α}
    (hindex : Agrees index params vs) {e : Expr} (hd : e.Direct) (hc : e.Canonical) {x : α}
    (hx : e.evaluate vs = .ok x) :
    ∃ c, ofExpr index e = .ok c ∧ ∀ cells, cells.size = c.count → (c.run params cells).1 = x := by
  have hlowers : Expr.Lowers params vs index (Expr.lowerWithin index e.nesting) e :=
    Expr.lowers hindex hd hc
  obtain ⟨i, g, hlower, -, hg, hi, hlast⟩ := hlowers .empty x hx (Graph.sound_empty params vs)
  refine ⟨shared g.code.toList i, by rw [ofExpr, Expr.lowerWithin, hlower]; rfl,
    fun cells hcells => ?_⟩
  have hunread := hg.forward.unread (hlast (Table.get?_empty e))
  rw [run_eq (allocated_shared hg.forward i) hunread hcells]
  exact congrArg (·.getD Scalar.undefined) hi

end Symbolic
