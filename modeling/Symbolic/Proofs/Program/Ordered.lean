import Symbolic.Program.Compile
import Symbolic.Proofs.Expr.Depth
import Symbolic.Proofs.Program.Allocation

/-!
Programs in cells that have been used. Whatever expression is written out, the instructions of its
graph take earlier results, and what is put out is the result of the last one
(`Expr.lowersOrdered`). So a run depends on nothing that an earlier one has left in the cells
(`Program.Reusable`). Nothing is asked of the expression, and a piece of lowering may fail.
-/

namespace Symbolic

namespace Graph

variable {β γ : Type} {g : Graph}

/-- Instructions take earlier results, and what has been written out has its place among them. -/
structure Ordered (g : Graph) : Prop where
  forward : Forward g.code.toList
  placed : ∀ e i, g.places.get? e = some i → i < g.code.size

/-- What a piece of lowering leaves if it succeeds: an ordered graph that has lost nothing. What is
said of its result goes by the number of instructions then. -/
def Leaves (g : Graph) (r : Except Error (β × Graph)) (Q : β → Nat → Prop) : Prop :=
  ∀ b g', r = .ok (b, g') → g'.Ordered ∧ g.code.size ≤ g'.code.size ∧ Q b g'.code.size

def IsLast (i n : Nat) : Prop := i + 1 = n

/-- The place is one of `n` instructions: the last one, if they have been more than `m`. -/
def Newest (m i n : Nat) : Prop := i < n ∧ (n = m ∨ i + 1 = n)

theorem IsLast.newest {i n : Nat} (h : IsLast i n) (m : Nat) : Newest m i n :=
  ⟨Nat.lt_of_succ_le (Nat.le_of_eq h), .inr h⟩

variable {Q : β → Nat → Prop} {R : γ → Nat → Prop}

namespace Leaves

theorem ok (hg : g.Ordered) {b : β} (hq : Q b g.code.size) : Leaves g (.ok (b, g)) Q := by
  intro b' g' h
  cases h
  exact ⟨hg, Nat.le_refl _, hq⟩

theorem error (err : Error) : Leaves g (.error err) Q := by
  intro b g' h
  cases h

theorem imp {r : Except Error (β × Graph)} {Q' : β → Nat → Prop} (hr : Leaves g r Q)
    (h : ∀ b n, Q b n → Q' b n) : Leaves g r Q' := by
  intro b g' hb
  obtain ⟨hg', hle, hq⟩ := hr b g' hb
  exact ⟨hg', hle, h b _ hq⟩

theorem bind {r : Except Error (β × Graph)} {f : β × Graph → Except Error (γ × Graph)}
    (hr : Leaves g r Q)
    (hf : ∀ b g', g'.Ordered → g.code.size ≤ g'.code.size → Q b g'.code.size →
      Leaves g' (f (b, g')) R) : Leaves g (r >>= f) R := by
  intro c g'' hc
  obtain ⟨⟨b, g'⟩, hb, hc⟩ := except_bind_eq_ok.1 hc
  obtain ⟨hg', hle, hq⟩ := hr b g' hb
  obtain ⟨hg'', hle', hr⟩ := hf b g' hg' hle hq c g'' hc
  exact ⟨hg'', hle.trans hle', hr⟩

theorem note {r : Except Error (Nat × Graph)} {Q : Nat → Nat → Prop} (hr : Leaves g r Q)
    (hlt : ∀ i n, Q i n → i < n) (e : Expr) :
    Leaves g (r >>= fun p => .ok (p.1, p.2.note e p.1)) Q := by
  intro i g' hi
  obtain ⟨⟨j, g₁⟩, hj, hi⟩ := except_bind_eq_ok.1 hi
  cases hi
  obtain ⟨hg₁, hle, hq⟩ := hr j g₁ hj
  refine ⟨⟨hg₁.forward, fun d k hk => ?_⟩, hle, hq⟩
  rw [Graph.note, Table.get?_insert] at hk
  split at hk
  · cases hk
    exact hlt j _ hq
  · exact hg₁.placed d k hk

theorem noteLast {r : Except Error (Nat × Graph)} (hr : Leaves g r IsLast) (e : Expr) (m : Nat) :
    Leaves g (r >>= fun p => .ok (p.1, p.2.note e p.1)) (Newest m) :=
  (hr.imp fun _ _ hi => hi.newest m).note (fun _ _ hi => hi.1) e

end Leaves

/-- An instruction that takes results of the graph is added as the last one. -/
theorem leaves_emit (hg : g.Ordered) {x : Instruction} (hx : ∀ j ∈ x.inputs, j < g.code.size) :
    Leaves g (.ok (g.emit x)) IsLast := by
  have hsize : (g.emit x).2.code.size = g.code.size + 1 := Array.size_push _
  have hcode : (g.emit x).2.code.toList = g.code.toList ++ [x] := Array.toList_push
  have hordered : (g.emit x).2.Ordered := by
    refine ⟨hcode ▸ hg.forward.concat hx, fun e i hi => ?_⟩
    rw [hsize]
    exact Nat.lt_succ_of_lt (hg.placed e i hi)
  rintro i g' ⟨⟩
  exact ⟨hordered, hsize ▸ Nat.le_succ _, hsize.symm⟩

theorem leaves_constant (hg : g.Ordered) (c : Rat) :
    Leaves g (.ok (g.emit (.constant c))) IsLast :=
  leaves_emit hg (List.forall_mem_nil _)

theorem leaves_binary (hg : g.Ordered) (f : BinaryOp) {a b : Nat} (ha : a < g.code.size)
    (hb : b < g.code.size) : Leaves g (.ok (g.emit (.binary f a b))) IsLast := by
  refine leaves_emit hg fun j hj => ?_
  rcases List.mem_pair.1 hj with rfl | rfl
  · exact ha
  · exact hb

theorem leaves_builtin (hg : g.Ordered) (f : Builtin) {is : List Nat}
    (his : ∀ i ∈ is, i < g.code.size) : Leaves g (f.emit is g) IsLast := by
  unfold Builtin.emit
  split
  · exact leaves_emit hg his
  · exact leaves_emit hg his
  · exact .error _

theorem ordered_empty : empty.Ordered where
  forward i x hx := by cases hx
  placed e i hi := by
    rw [empty, Table.get?_empty] at hi
    cases hi

end Graph

open Symbolic.Graph

namespace Expr

variable {index : Symbol → Option Nat} {again : Expr → Graph → Except Error (Nat × Graph)}
  {n : Nat} {g : Graph}

/-- The expression is written out as said, in any ordered graph. -/
def LowersOrdered (index : Symbol → Option Nat)
    (again : Expr → Graph → Except Error (Nat × Graph)) (e : Expr) : Prop :=
  ∀ g : Graph, g.Ordered → Leaves g (lowerWith index again e g) (Newest g.code.size)

/-- With nothing to join, the result stays where it is. -/
theorem leaves_rest {es : List Expr} (h : ∀ e ∈ es, LowersOrdered index again e) (f : BinaryOp)
    {a : Nat} (hg : g.Ordered) (ha : a < g.code.size) :
    Leaves g (lowerRest index again f a es g) fun i n =>
      (i = a ∧ n = g.code.size) ∨ IsLast i n := by
  induction es generalizing a g with
  | nil => exact .ok hg (.inl ⟨rfl, rfl⟩)
  | cons e es ih =>
    obtain ⟨he, hes⟩ := List.forall_mem_cons.1 h
    refine (he g hg).bind fun b g₁ hg₁ hle hb => ?_
    refine (leaves_binary hg₁ f (Nat.lt_of_lt_of_le ha hle) hb.1).bind
      (f := fun p => lowerRest index again f p.1 es p.2) fun c g₂ hg₂ _ hc => ?_
    refine (ih hes hg₂ (hc.newest 0).1).imp fun i n hi => .inr ?_
    rcases hi with ⟨rfl, rfl⟩ | hi
    · exact hc
    · exact hi

/-- The first operand, and the others joined to it, for a node that is noted then. -/
theorem leaves_joined {d : Expr} {es : List Expr} (h : ∀ e ∈ d :: es, LowersOrdered index again e)
    (f : BinaryOp) (hg : g.Ordered) (e : Expr) :
    Leaves g (lowerWith index again d g >>= fun p =>
      lowerRest index again f p.1 es p.2 >>= fun p => .ok (p.1, p.2.note e p.1))
      (Newest g.code.size) := by
  obtain ⟨hd, hes⟩ := List.forall_mem_cons.1 h
  intro i g' hi
  obtain ⟨⟨a, g₁⟩, ha, hi⟩ := except_bind_eq_ok.1 hi
  obtain ⟨hg₁, hle, ha⟩ := hd g hg a g₁ ha
  have hnoted := (leaves_rest hes f hg₁ ha.1).note (fun i n hi => ?_) e
  · obtain ⟨hg', hle', hi⟩ := hnoted i g' hi
    refine ⟨hg', hle.trans hle', ?_⟩
    rcases hi with ⟨rfl, hsize⟩ | hi
    · exact hsize ▸ ha
    · exact hi.newest _
  · rcases hi with ⟨rfl, rfl⟩ | hi
    · exact ha.1
    · exact (hi.newest 0).1

theorem leaves_all {es : List Expr} (h : ∀ e ∈ es, LowersOrdered index again e) (hg : g.Ordered) :
    Leaves g (lowerAll index again es g) fun is n => ∀ i ∈ is, i < n := by
  induction es generalizing g with
  | nil => exact .ok hg (List.forall_mem_nil _)
  | cons e es ih =>
    obtain ⟨he, hes⟩ := List.forall_mem_cons.1 h
    refine (he g hg).bind fun i g₁ hg₁ _ hi => ?_
    refine (ih hes hg₁).bind fun is g₂ hg₂ hle his => .ok hg₂ ?_
    exact List.forall_mem_cons.2 ⟨Nat.lt_of_lt_of_le hi.1 hle, his⟩

theorem lowersOrdered_of_new {e : Expr}
    (h : ∀ g : Graph, g.Ordered → g.places.get? e = none →
      Leaves g (lowerWith index again e g) (Newest g.code.size)) : LowersOrdered index again e := by
  intro g hg
  cases hi : g.places.get? e with
  | some i =>
    rw [show lowerWith index again e g = .ok (i, g) by rw [lowerWith.eq_def, hi]]
    exact .ok hg ⟨hg.placed e i hi, .inl rfl⟩
  | none => exact h g hg hi

/-- The bodies of called functions are written out as said, so their calls are. -/
theorem lowersOrdered (ha : ∀ e, callDepth e < n → ∀ g : Graph, g.Ordered →
    Leaves g (again e g) (Newest g.code.size)) (e : Expr) (hn : callDepth e ≤ n) :
    LowersOrdered index again e := by
  have hall {es : List Expr} (hn : callDepths es ≤ n)
      (ih : ∀ e ∈ es, callDepth e ≤ n → LowersOrdered index again e) :
      ∀ e ∈ es, LowersOrdered index again e := fun e he => ih e he (callDepths_le.1 hn e he)
  induction e with
  | const c =>
    refine lowersOrdered_of_new fun g hg hi => ?_
    rw [lowerWith, hi]
    exact (leaves_constant hg c).noteLast _ _
  | var s k =>
    refine lowersOrdered_of_new fun g hg hi => ?_
    rw [lowerWith, hi]
    cases hs : index s with
    | some j =>
      simp only [hs]
      exact (leaves_emit (x := .parameter j) hg (List.forall_mem_nil _)).noteLast _ _
    | none =>
      simp only [hs]
      exact .error _
  | sum es ih =>
    refine lowersOrdered_of_new fun g hg hi => ?_
    cases es with
    | nil =>
      rw [lowerWith, hi]
      exact .error _
    | cons d es =>
      rw [lowerWith, hi]
      exact leaves_joined (hall hn ih) .add hg _
  | product es ih =>
    refine lowersOrdered_of_new fun g hg hi => ?_
    cases es with
    | nil =>
      rw [lowerWith, hi]
      exact .error _
    | cons d es =>
      rw [lowerWith, hi]
      exact leaves_joined (hall hn ih) .multiply hg _
  | pow b p ihb ihp =>
    rw [callDepth, Nat.max_le] at hn
    refine lowersOrdered_of_new fun g hg hi => ?_
    rw [lowerWith, hi]
    refine (ihb hn.1 g hg).bind fun i g₁ hg₁ _ hi => ?_
    refine (ihp hn.2 g₁ hg₁).bind fun j g₂ hg₂ hle hj => ?_
    exact (leaves_binary hg₂ .power (Nat.lt_of_lt_of_le hi.1 hle) hj.1).noteLast _ _
  | apply f e ih =>
    refine lowersOrdered_of_new fun g hg hi => ?_
    rw [lowerWith, hi]
    refine (ih hn g hg).bind fun a g₁ hg₁ _ ha => ?_
    exact (leaves_emit (x := .unary _ a) hg₁ (List.forall_mem_singleton.2 ha.1)).noteLast _ _
  | call f ps b es _ ih =>
    rw [callDepth] at hn
    refine lowersOrdered_of_new fun g hg hi => ?_
    rw [lowerWith, hi]
    cases hp : Builtin.ofDefinition? ⟨f, ps, b⟩ with
    | some p =>
      simp only [hp]
      refine (leaves_all (hall (by omega) ih) hg).bind fun is g₁ hg₁ _ his => ?_
      exact (leaves_builtin hg₁ p his).noteLast _ _
    | none =>
      simp only [hp]
      have hdepth : callDepth (inlined ps b es) ≤ callDepth b + callDepths es :=
        callDepth_inlined_le (callDepths_le.1 (Nat.le_refl _))
      exact (ha _ (by omega) g hg).note (fun _ _ hi => hi.1) _

/-- Calls nest less deep than the limit, so all bodies are written out. -/
theorem leaves_lowerWithin {e : Expr} (hn : callDepth e < n) (hg : g.Ordered) :
    Leaves g (lowerWithin index n e g) (Newest g.code.size) := by
  induction n generalizing e g with
  | zero => exact absurd hn (Nat.not_lt_zero _)
  | succ n ih =>
    exact lowersOrdered (fun e he g hg => ih he hg) e (Nat.le_of_lt_succ hn) g hg

end Expr

namespace GraphCode

variable {α : Type} [Scalar α] {c : GraphCode} {index : Symbol → Option Nat} {e : Expr}

theorem ofExpr_eq_ok : ofExpr index e = .ok c ↔
    ∃ i g, e.lowerWithin index (e.nesting + 1) .empty = .ok (i, g) ∧ c = shared g.code.toList i := by
  rw [ofExpr, except_bind_eq_ok]
  constructor
  · rintro ⟨⟨i, g⟩, hg, h⟩
    cases h
    exact ⟨i, g, hg, rfl⟩
  · rintro ⟨i, g, hg, rfl⟩
    exact ⟨(i, g), hg, rfl⟩

/-- The instructions take earlier results, and what is put out is the result of the last one. -/
theorem ofExpr_ordered (h : ofExpr index e = .ok c) :
    Forward c.code ∧ c.output + 1 = c.code.length := by
  obtain ⟨i, g, hg, rfl⟩ := ofExpr_eq_ok.1 h
  obtain ⟨hordered, -, hlt, hlast⟩ := Expr.leaves_lowerWithin
    (by rw [Expr.nesting_eq_callDepth]; exact Nat.lt_succ_self _) ordered_empty i g hg
  refine ⟨hordered.forward, hlast.resolve_left fun hsize => ?_⟩
  -- to the empty graph something has been added
  rw [hsize] at hlt
  exact Nat.not_lt_zero _ hlt

/-- Graph code of an expression is allocated, and nothing takes the result that is put out. -/
theorem ofExpr_allocated (h : ofExpr index e = .ok c) : c.Allocated ∧ Unread c.code c.output := by
  obtain ⟨hforward, hlast⟩ := ofExpr_ordered h
  obtain ⟨i, g, -, rfl⟩ := ofExpr_eq_ok.1 h
  exact ⟨allocated_shared hforward i, hforward.unread hlast⟩

theorem size_runFrom (params cells : Array α) (i : Nat) (code : List Instruction) :
    (c.runFrom params i cells code).size = cells.size := by
  induction code generalizing i cells with
  | nil => rfl
  | cons x code ih => rw [runFrom, ih, size_write]

end GraphCode

namespace Program

variable {α : Type} [Scalar α]

/-- Cells that the program can run in: as many as it counts. Any stack will do. -/
def Fits : Program → Array α → Prop
  | stack _, _ => True
  | heap c, cells => cells.size = c.count

theorem fits_freshCells (p : Program) : p.Fits (p.freshCells (α := α)) := by
  cases p with
  | stack c => trivial
  | heap c => exact Array.size_replicate

theorem Fits.run {p : Program} {cells : Array α} (h : p.Fits cells) (params : Array α) :
    p.Fits (p.run params cells).2 := by
  cases p with
  | stack c => trivial
  | heap c => exact (GraphCode.size_runFrom params cells 0 c.code).trans h

/-- The result is the same in whatever cells the program runs. -/
def Reusable (p : Program) : Prop :=
  ∀ {α : Type} [Scalar α] (params : Array α) {cells cells' : Array α}, p.Fits cells →
    p.Fits cells' → (p.run params cells).1 = (p.run params cells').1

theorem reusable_stack (c : StackCode) : (stack c).Reusable := by
  intro α _ params cells cells' _ _
  -- the stack is cleared first
  have hclear (cells : Array α) : (cells.take 0).toList = [] := by simp
  rw [run, run, hclear, hclear]

theorem reusable_heap {c : GraphCode} (h : c.Allocated) (hout : Unread c.code c.output) :
    (heap c).Reusable := by
  intro α _ params cells cells' hc hc'
  exact (GraphCode.run_eq h hout hc).trans (GraphCode.run_eq h hout hc').symm

end Program

/-- Compiled functions can be run again and again in the same cells. -/
theorem CompileOptions.reusable_of_compile {o : CompileOptions} {e : Expr} {f : Compiled}
    (h : o.compile e = .ok f) : f.program.Reusable := by
  obtain ⟨p, hp, h⟩ := except_bind_eq_ok.1 h
  cases h
  rw [programFor] at hp
  split at hp
  · obtain ⟨c, -, hp⟩ := except_bind_eq_ok.1 hp
    cases hp
    exact Program.reusable_stack c
  · obtain ⟨c, hc, hp⟩ := except_bind_eq_ok.1 hp
    cases hp
    obtain ⟨hallocated, hunread⟩ := GraphCode.ofExpr_allocated hc
    exact Program.reusable_heap hallocated hunread

end Symbolic
