import Symbolic.Program.Compile
import Symbolic.Proofs.Canonical.Constructible
import Symbolic.Proofs.Expr.Depth
import Symbolic.Proofs.Numeric.Evaluate
import Symbolic.Proofs.Search.Kept

/-!
The parameters that compilation finds by itself. Code is written out from the expression as it stands,
its calls giving way to bodies one at a time, and looks up the variables that it comes upon (`Reads`);
these are the symbols of the postfix code (`symbol_mem_postfixWithin`). What is compiled is canonical
(`Kept.simplified`), so no sum, product or call lacks operands and nothing else can be missing.
The parameters are the variables of the atomic form, in which terms may have cancelled. So compilation
without parameters finds a place for all that it reads if the atomic form still has every variable that
is read (`CompileOptions.compile_own_parameters`), and otherwise it may miss one.
-/

namespace Symbolic

namespace Expr

/-- The variable is come upon when code is written out: in the operands of a node, in the arguments of
a call that is an operation, and in the body of any other call once the arguments are in place. -/
inductive Reads (s : Symbol) : Expr → Prop where
  | var (k : Site) : Reads s (var s k)
  | sum {es : List Expr} {e : Expr} : e ∈ es → Reads s e → Reads s (sum es)
  | product {es : List Expr} {e : Expr} : e ∈ es → Reads s e → Reads s (product es)
  | base {b p : Expr} : Reads s b → Reads s (pow b p)
  | power {b p : Expr} : Reads s p → Reads s (pow b p)
  | apply {f : Primitive} {e : Expr} : Reads s e → Reads s (apply f e)
  | argument {f : String} {ps : List Symbol} {b e : Expr} {es : List Expr} {p : Builtin} :
      Builtin.ofDefinition? ⟨f, ps, b⟩ = some p → e ∈ es → Reads s e → Reads s (call f ps b es)
  | body {f : String} {ps : List Symbol} {b : Expr} {es : List Expr} :
      Builtin.ofDefinition? ⟨f, ps, b⟩ = none → Reads s (inlined ps b es) → Reads s (call f ps b es)

/-- The error is that of a variable that is read and has no place. -/
def Unplaced (index : Symbol → Option Nat) (e : Expr) (err : Error) : Prop :=
  ∃ s, Reads s e ∧ index s = none ∧ err = .missingVariable s.name

def TooDeep (err : Error) : Prop := ∃ d, err = .stackTooDeep d maxStackDepth

end Expr

/-- Whatever goes wrong is as said. -/
def FailsAs {ε β : Type} (P : ε → Prop) (r : Except ε β) : Prop := ∀ err, r = .error err → P err

namespace FailsAs

variable {ε β γ δ : Type} {P Q : ε → Prop}

theorem ok (b : β) : FailsAs P (.ok b) := fun _ h => by cases h

theorem error {err : ε} (h : P err) : FailsAs P (.error err : Except ε β) := by
  intro err' h'
  cases h'
  exact h

theorem imp {r : Except ε β} (hr : FailsAs P r) (h : ∀ err, P err → Q err) : FailsAs Q r :=
  fun err herr => h err (hr err herr)

theorem bind {r : Except ε β} {f : β → Except ε γ} (hr : FailsAs P r)
    (hf : ∀ b, r = .ok b → FailsAs P (f b)) : FailsAs P (r >>= f) := by
  cases r with
  | error err => exact error (hr err rfl)
  | ok b => exact hf b rfl

theorem bind₂ {r : Except ε (β × γ)} {f : β × γ → Except ε δ} (hr : FailsAs P r)
    (hf : ∀ b c, r = .ok (b, c) → FailsAs P (f (b, c))) : FailsAs P (r >>= f) :=
  hr.bind fun x => hf x.1 x.2

end FailsAs

open Symbolic.Expr

/-- What every operation keeps goes over to the body of a function that is called. -/
theorem Kept.inlined {P : Expr → Prop} (h : Kept P) {f : String} {ps : List Symbol} {b : Expr}
    {es : List Expr} (hc : P (.call f ps b es)) : P (Expr.inlined ps b es) :=
  h.substitutePairs (fun p hp => h.operands hc p.2 (List.of_mem_zip hp).2) (h.body hc).2

/-- What is compiled in place of an expression has what every operation keeps. -/
theorem Kept.simplified {P : Expr → Prop} (h : Kept P) (o : CompileOptions) {e : Expr} (he : P e) :
    P (o.simplified e) := by
  rw [CompileOptions.simplified]
  split
  · exact he
  · refine h.simplest ?_ he
    exact h.standardReplacements

variable {index : Symbol → Option Nat} {P : Error → Prop} {es : List Expr}

/-! Nothing goes wrong with graph code but that a place is missing. -/

section Graph

variable {again : Expr → Graph → Except Error (Nat × Graph)}

theorem lowerRest_fails (h : ∀ e ∈ es, ∀ g, FailsAs P (lowerWith index again e g)) (f : BinaryOp)
    (a : Nat) (g : Graph) : FailsAs P (lowerRest index again f a es g) := by
  induction es generalizing a g with
  | nil => exact .ok _
  | cons e es ih =>
    obtain ⟨he, hes⟩ := List.forall_mem_cons.1 h
    rw [lowerRest]
    exact (he g).bind₂ fun b g _ => ih hes _ _

theorem lowerAll_fails (h : ∀ e ∈ es, ∀ g, FailsAs P (lowerWith index again e g)) (g : Graph) :
    FailsAs P (lowerAll index again es g) := by
  induction es generalizing g with
  | nil => exact .ok _
  | cons e es ih =>
    obtain ⟨he, hes⟩ := List.forall_mem_cons.1 h
    rw [lowerAll]
    exact (he g).bind₂ fun i g _ => (ih hes g).bind₂ fun is g _ => .ok _

theorem length_of_lowerAll {is : List Nat} {g g' : Graph}
    (h : lowerAll index again es g = .ok (is, g')) : is.length = es.length := by
  induction es generalizing is g with
  | nil =>
    cases h
    rfl
  | cons e es ih =>
    obtain ⟨⟨i, g₁⟩, -, h⟩ := except_bind_eq_ok.1 h
    obtain ⟨⟨js, g₂⟩, hjs, h⟩ := except_bind_eq_ok.1 h
    cases h
    exact congrArg (· + 1) (ih hjs)

theorem emit_fails (f : Builtin) {is : List Nat} (hl : f.operation.arity = is.length) (g : Graph) :
    FailsAs P (f.emit is g) := by
  unfold Builtin.emit
  generalize f.operation = op at hl ⊢
  cases op with
  | unary op =>
    obtain ⟨i, rfl⟩ := List.length_eq_one_iff.1 hl.symm
    exact .ok _
  | binary op =>
    obtain ⟨i, j, rfl⟩ := List.length_eq_two.1 hl.symm
    exact .ok _

theorem lowerWith_fails (ha : ∀ e, Canonical e → ∀ g, FailsAs (Unplaced index e) (again e g))
    {e : Expr} (hc : Canonical e) (g : Graph) :
    FailsAs (Unplaced index e) (lowerWith index again e g) := by
  have himp {d e : Expr} (h : ∀ g, FailsAs (Unplaced index d) (lowerWith index again d g))
      (hr : ∀ s, Reads s d → Reads s e) (g : Graph) :
      FailsAs (Unplaced index e) (lowerWith index again d g) :=
    (h g).imp fun err herr => herr.imp fun s hs => ⟨hr s hs.1, hs.2⟩
  induction e generalizing g with
  | const c =>
    rw [lowerWith]
    split
    · exact .ok _
    · exact .ok _
  | var s k =>
    rw [lowerWith]
    split
    · exact .ok _
    · cases hs : index s with
      | some i => simp only [hs]; exact .ok _
      | none => simp only [hs]; exact .error ⟨s, .var k, hs, rfl⟩
  | sum es ih =>
    have hes : ∀ e ∈ es, ∀ g, FailsAs (Unplaced index (sum es)) (lowerWith index again e g) :=
      fun e he => himp (ih e he (hc.operands e he)) fun s => .sum he
    obtain ⟨d, d', ds, rfl⟩ := exists_cons_cons_of_two_le hc.sum_shape.two_le
    obtain ⟨hd, hds⟩ := List.forall_mem_cons.1 hes
    rw [lowerWith]
    split
    · exact .ok _
    · exact (hd g).bind₂ fun a g _ => (lowerRest_fails hds .add a g).bind₂ fun i g _ => .ok _
  | product es ih =>
    have hes : ∀ e ∈ es, ∀ g, FailsAs (Unplaced index (product es)) (lowerWith index again e g) :=
      fun e he => himp (ih e he (hc.operands e he)) fun s => .product he
    obtain ⟨d, d', ds, rfl⟩ := exists_cons_cons_of_two_le hc.product_shape.two_le
    obtain ⟨hd, hds⟩ := List.forall_mem_cons.1 hes
    rw [lowerWith]
    split
    · exact .ok _
    · exact (hd g).bind₂ fun a g _ => (lowerRest_fails hds .multiply a g).bind₂ fun i g _ => .ok _
  | pow b p ihb ihp =>
    rw [lowerWith]
    split
    · exact .ok _
    · exact (himp (ihb (hc.operands b (by simp [operands]))) (fun s => .base) g).bind₂ fun i g _ =>
        (himp (ihp (hc.operands p (by simp [operands]))) (fun s => .power) g).bind₂ fun j g _ => .ok _
  | apply f e ih =>
    rw [lowerWith]
    split
    · exact .ok _
    · exact (himp (ih (hc.operands e List.mem_cons_self)) (fun s => .apply) g).bind₂
        fun a g _ => .ok _
  | call f ps b es _ ih =>
    rw [lowerWith]
    split
    · exact .ok _
    cases hp : Builtin.ofDefinition? ⟨f, ps, b⟩ with
    | some p =>
      have hes : ∀ e ∈ es, ∀ g, FailsAs (Unplaced index (call f ps b es)) (lowerWith index again e g) :=
        fun e he => himp (ih e he (hc.operands e he)) fun s => .argument hp he
      have harity : p.operation.arity = es.length :=
        (arity_of_ofDefinition? hp).trans (closed_canonical.body hc).1.symm
      simp only [hp]
      refine (lowerAll_fails hes g).bind₂ fun is g his => ?_
      exact (emit_fails p (harity.trans (length_of_lowerAll his).symm) g).bind₂ fun i g _ => .ok _
    | none =>
      have hbody : FailsAs (Unplaced index (call f ps b es)) (again (inlined ps b es) g) :=
        (ha _ (closed_canonical.inlined hc) g).imp fun err herr =>
          herr.imp fun s hs => ⟨.body hp hs.1, hs.2⟩
      simp only [hp]
      exact hbody.bind₂ fun i g _ => .ok _

theorem lowerWithin_fails (n : Nat) {e : Expr} (hc : Canonical e) (g : Graph) :
    FailsAs (Unplaced index e) (lowerWithin index n e g) := by
  induction n generalizing e g with
  | zero => exact .ok _
  | succ n ih => exact lowerWith_fails (fun _ hc g => ih hc g) hc g

end Graph

/-! The symbols of the postfix code are the variables that are read. -/

theorem Operation.toPostfix_ne_symbol (op : Operation) (s : Symbol) : op.toPostfix ≠ .symbol s := by
  cases op <;> simp [toPostfix]

theorem Operation.toPostfix_ne_invalid (op : Operation) (f : Fault) :
    op.toPostfix ≠ .invalid f := by
  cases op <;> simp [toPostfix]

section Postfix

variable {s : Symbol} {again : Expr → List Postfix} {n : Nat}

theorem reads_sum : Reads s (sum es) ↔ ∃ e ∈ es, Reads s e :=
  ⟨fun | .sum he h => ⟨_, he, h⟩, fun ⟨_, he, h⟩ => .sum he h⟩

theorem reads_product : Reads s (product es) ↔ ∃ e ∈ es, Reads s e :=
  ⟨fun | .product he h => ⟨_, he, h⟩, fun ⟨_, he, h⟩ => .product he h⟩

theorem reads_pow {b p : Expr} : Reads s (pow b p) ↔ Reads s b ∨ Reads s p :=
  ⟨fun | .base h => .inl h | .power h => .inr h, fun h => h.elim .base .power⟩

theorem reads_apply {f : Primitive} {e : Expr} : Reads s (apply f e) ↔ Reads s e :=
  ⟨fun | .apply h => h, .apply⟩

theorem reads_argument {f : String} {ps : List Symbol} {b : Expr} {p : Builtin}
    (hp : Builtin.ofDefinition? ⟨f, ps, b⟩ = some p) :
    Reads s (call f ps b es) ↔ ∃ e ∈ es, Reads s e := by
  constructor
  · intro h
    cases h with
    | argument _ he h => exact ⟨_, he, h⟩
    | body hnone _ => cases hnone.symm.trans hp
  · exact fun ⟨_, he, h⟩ => .argument hp he h

theorem reads_body {f : String} {ps : List Symbol} {b : Expr}
    (hp : Builtin.ofDefinition? ⟨f, ps, b⟩ = none) :
    Reads s (call f ps b es) ↔ Reads s (inlined ps b es) := by
  constructor
  · intro h
    cases h with
    | argument hsome _ _ => cases hsome.symm.trans hp
    | body _ h => exact h
  · exact .body hp

theorem mem_postfixRest {x : Postfix} {f : BinaryOp} (hx : x ≠ .binary f) :
    x ∈ postfixRest again f es ↔ ∃ e ∈ es, x ∈ postfixWith again e := by
  induction es with
  | nil => simp [postfixRest]
  | cons e es ih => simp [postfixRest, hx, ih]

theorem mem_postfixAll {x : Postfix} :
    x ∈ postfixAll again es ↔ ∃ e ∈ es, x ∈ postfixWith again e := by
  induction es with
  | nil => simp [postfixAll]
  | cons e es ih => simp [postfixAll, ih]

theorem mem_postfixJoined {x : Postfix} {f : BinaryOp} (hx : x ≠ .binary f) {d : Expr} :
    x ∈ postfixWith again d ++ postfixRest again f es ↔ ∃ e ∈ d :: es, x ∈ postfixWith again e := by
  rw [List.mem_append, mem_postfixRest hx, List.exists_mem_cons_iff]

theorem symbol_mem_postfixWith
    (ha : ∀ e, callDepth e < n → (.symbol s ∈ again e ↔ Reads s e)) (e : Expr)
    (hn : callDepth e ≤ n) : .symbol s ∈ postfixWith again e ↔ Reads s e := by
  have hall {es : List Expr} (hn : callDepths es ≤ n)
      (ih : ∀ e ∈ es, callDepth e ≤ n → (.symbol s ∈ postfixWith again e ↔ Reads s e)) :
      (∃ e ∈ es, .symbol s ∈ postfixWith again e) ↔ ∃ e ∈ es, Reads s e :=
    exists_congr fun e => and_congr_right fun he => ih e he (callDepths_le.1 hn e he)
  induction e with
  | const c => exact iff_of_false (by simp [postfixWith]) fun h => by cases h
  | var t k =>
    rw [postfixWith, List.mem_singleton, Postfix.symbol.injEq]
    exact ⟨fun h => h ▸ .var k, fun | .var _ => rfl⟩
  | sum es ih =>
    rw [reads_sum, ← hall hn ih]
    cases es with
    | nil => simp [postfixWith]
    | cons e es =>
      rw [postfixWith]
      exact mem_postfixJoined (by simp)
  | product es ih =>
    rw [reads_product, ← hall hn ih]
    cases es with
    | nil => simp [postfixWith]
    | cons e es =>
      rw [postfixWith]
      exact mem_postfixJoined (by simp)
  | pow b p ihb ihp =>
    obtain ⟨hb, hp⟩ := Nat.max_le.1 hn
    simp [postfixWith, reads_pow, ihb hb, ihp hp]
  | apply f e ih => simp [postfixWith, reads_apply, ih hn]
  | call f ps b es _ ih =>
    rw [callDepth] at hn
    rw [postfixWith]
    cases hp : Builtin.ofDefinition? ⟨f, ps, b⟩ with
    | some p =>
      have hlast : .symbol s ∉ [p.operation.toPostfix] :=
        List.mem_singleton.not.2 (p.operation.toPostfix_ne_symbol s).symm
      rw [reads_argument hp, ← hall (by omega) ih, List.mem_append, mem_postfixAll,
        or_iff_left hlast]
    | none =>
      have hdepth : callDepth (inlined ps b es) ≤ callDepth b + callDepths es :=
        callDepth_inlined_le (callDepths_le.1 (Nat.le_refl _))
      rw [reads_body hp]
      exact ha _ (by omega)

theorem symbol_mem_postfixWithin {e : Expr} (hn : callDepth e < n) :
    .symbol s ∈ postfixWithin n e ↔ Reads s e := by
  induction n generalizing e with
  | zero => exact absurd hn (Nat.not_lt_zero _)
  | succ n ih => exact symbol_mem_postfixWith (fun e he => ih he) e (Nat.le_of_lt_succ hn)

/-- In canonical form sums and products have operands, so no step is invalid. -/
theorem not_invalid_mem_postfixWith {f : Fault}
    (ha : ∀ e, Canonical e → .invalid f ∉ again e) {e : Expr} (hc : Canonical e) :
    .invalid f ∉ postfixWith again e := by
  have hall {es : List Expr} (h : ∀ e ∈ es, .invalid f ∉ postfixWith again e) :
      ¬ ∃ e ∈ es, .invalid f ∈ postfixWith again e :=
    fun ⟨e, he, hmem⟩ => h e he hmem
  induction e with
  | const c | var s k => simp [postfixWith]
  | sum es ih =>
    have hes := hall fun e he => ih e he (hc.operands e he)
    obtain ⟨d, d', ds, rfl⟩ := exists_cons_cons_of_two_le hc.sum_shape.two_le
    rw [postfixWith]
    exact (mem_postfixJoined (by simp)).not.2 hes
  | product es ih =>
    have hes := hall fun e he => ih e he (hc.operands e he)
    obtain ⟨d, d', ds, rfl⟩ := exists_cons_cons_of_two_le hc.product_shape.two_le
    rw [postfixWith]
    exact (mem_postfixJoined (by simp)).not.2 hes
  | pow b p ihb ihp =>
    have hb := ihb (hc.operands b (by simp [operands]))
    have hp := ihp (hc.operands p (by simp [operands]))
    simp [postfixWith, hb, hp]
  | apply g e ih => simp [postfixWith, ih (hc.operands e List.mem_cons_self)]
  | call g ps b es _ ih =>
    have hes := hall fun e he => ih e he (hc.operands e he)
    rw [postfixWith]
    split
    · next p hp =>
      have hlast : .invalid f ∉ [p.operation.toPostfix] :=
        List.mem_singleton.not.2 (p.operation.toPostfix_ne_invalid f).symm
      rwa [List.mem_append, mem_postfixAll, or_iff_left hlast]
    · exact ha _ (closed_canonical.inlined hc)

theorem not_invalid_mem_postfixWithin {f : Fault} (n : Nat) {e : Expr} (hc : Canonical e) :
    .invalid f ∉ postfixWithin n e := by
  induction n generalizing e with
  | zero => exact List.not_mem_nil
  | succ n ih => exact not_invalid_mem_postfixWith (fun _ hc => ih hc) hc

end Postfix

/-! Stack code is linked step by step. A step that is a variable needs a place; if no step is invalid,
nothing else goes wrong but that the stack gets too deep. -/

section Stack

variable {xs : List Postfix} {n : Nat}

def LinkFault (index : Symbol → Option Nat) (e : Expr) (err : Error) : Prop :=
  Unplaced index e err ∨ TooDeep err

theorem link_fails (x : Postfix) (d : Draft) (h : ∀ err, TooDeep err → P err)
    (hx : ∀ s, x = .symbol s → index s = none → P (.missingVariable s.name))
    (hvalid : ∀ f, x ≠ .invalid f) : FailsAs P (d.link index x) := by
  have hpush (op : StackOp) : FailsAs P (d.push op) := by
    rw [Draft.push]
    split
    · exact .ok _
    · exact .error (h _ ⟨_, rfl⟩)
  cases x with
  | constant c => exact hpush _
  | symbol s =>
    rw [Draft.link]
    cases hs : index s with
    | some i => exact hpush _
    | none => exact .error (hx s rfl hs)
  | unary f => exact .ok _
  | binary f => exact .ok _
  | invalid f => exact absurd rfl (hvalid f)

theorem linkSteps_fails (h : ∀ err, TooDeep err → P err)
    (hxs : ∀ s, .symbol s ∈ xs → index s = none → P (.missingVariable s.name))
    (hvalid : ∀ f, .invalid f ∉ xs) (d : Draft) : FailsAs P (xs.foldlM (Draft.link index) d) := by
  induction xs generalizing d with
  | nil => exact .ok d
  | cons x xs ih =>
    have hx := link_fails x d h (fun s hs => hxs s (hs ▸ List.mem_cons_self))
      fun f hf => hvalid f (hf ▸ List.mem_cons_self)
    exact hx.bind fun d _ => ih (fun s hs => hxs s (List.mem_cons_of_mem x hs))
      (fun f hf => hvalid f (List.mem_cons_of_mem x hf)) d

theorem linkWithin_fails {e : Expr} (hc : Canonical e) (hn : callDepth e < n) (d : Draft) :
    FailsAs (LinkFault index e) (linkWithin index n e d) := by
  rw [linkWithin_eq]
  refine linkSteps_fails (fun _ => .inr) (fun s hs hnone => .inl ?_)
    (fun f => not_invalid_mem_postfixWithin n hc) d
  exact ⟨s, (symbol_mem_postfixWithin hn).1 hs, hnone, rfl⟩

/-! Where stack code is found, every variable that is read has a place. -/

def Placed (index : Symbol → Option Nat) (e : Expr) : Prop := ∀ s, Reads s e → index s ≠ none

def LinksPlaced (index : Symbol → Option Nat) (again : Expr → Draft → Except Error Draft)
    (e : Expr) : Prop :=
  ∀ d d', linkWith index again e d = .ok d' → Placed index e

theorem linkSteps_placed {d d' : Draft} (hd : xs.foldlM (Draft.link index) d = .ok d') {s : Symbol}
    (hs : .symbol s ∈ xs) : index s ≠ none := by
  induction xs generalizing d with
  | nil => cases hs
  | cons x xs ih =>
    obtain ⟨d₁, hx, hd⟩ := except_bind_eq_ok.1 hd
    rcases List.mem_cons.1 hs with rfl | hs
    · intro hnone
      rw [Draft.link, hnone] at hx
      cases hx
    · exact ih hd hs

theorem linksPlaced {e : Expr} (hn : callDepth e ≤ n) :
    LinksPlaced index (linkWithin index n) e := by
  intro d d' hd s hs
  have hsteps := (linkWithin_eq index (n + 1) e d).symm.trans hd
  exact linkSteps_placed hsteps ((symbol_mem_postfixWithin (Nat.lt_succ_of_le hn)).2 hs)

end Stack

namespace CompileOptions

theorem lookupLast_zipIdx_eq_none {s : Symbol} {ps : List Symbol} :
    lookupLast s ps.zipIdx = none ↔ s ∉ ps := by
  constructor
  · intro hnone hs
    obtain ⟨i, hi⟩ := @exists_lookupLast Nat s ps.zipIdx (by simpa using hs)
    rw [hnone] at hi
    cases hi
  · intro hs
    refine Option.eq_none_iff_forall_ne_some.2 fun i hi => hs ?_
    have hmem := List.mem_map_of_mem (f := Prod.fst) (Kept.mem_of_lookupLast hi)
    rwa [List.zipIdx_map_fst] at hmem

theorem programFor_fails (o : CompileOptions) (ps : List Symbol) {e : Expr} (hc : Canonical e) :
    FailsAs (fun err => Unplaced (fun s => lookupLast s ps.zipIdx) e err ∨
      o.target = .stack ∧ TooDeep err) (o.programFor ps e) := by
  rw [programFor]
  cases o.target with
  | stack =>
    have hdepth : callDepth e < e.nesting + 1 := by
      rw [nesting_eq_callDepth]
      exact Nat.lt_succ_self _
    refine FailsAs.bind (FailsAs.bind ((linkWithin_fails hc hdepth _).imp fun err h => ?_)
      fun d _ => .ok _) fun code _ => .ok _
    exact h.imp_right fun h => ⟨rfl, h⟩
  | heap =>
    exact FailsAs.bind (((lowerWithin_fails _ hc _).imp fun _ => .inl).bind₂ fun i g _ => .ok _)
      fun code _ => .ok _

/-- Stack code is found only where every variable that is read is a parameter. -/
theorem mem_of_programFor {o : CompileOptions} (ho : o.target = .stack) {ps : List Symbol} {e : Expr}
    {p : Program} (hp : o.programFor ps e = .ok p) {s : Symbol} (hs : Reads s e) : s ∈ ps := by
  rw [programFor, ho] at hp
  obtain ⟨code, hcode, -⟩ := except_bind_eq_ok.1 hp
  obtain ⟨d, hd, -⟩ := except_bind_eq_ok.1 hcode
  have hplaced := linksPlaced (nesting_eq_callDepth e).ge .empty d hd s hs
  exact not_not.1 fun hn => hplaced (lookupLast_zipIdx_eq_none.2 hn)

/-- Compiled without parameters, an expression for which every variable that is read is a variable of
the atomic form has a program, unless its stack would get too deep. A variable that is not found is
one that is read and that the atomic form has lost; and stack code is found only if none is. -/
theorem compile_own_parameters (depth : Nat) (target : Target) {e : Expr} (he : Constructible e) :
    let o : CompileOptions := ⟨none, depth, target⟩
    let d := o.simplified e
    ((∀ s, Reads s d → s ∈ d.atomic.vars) → (∃ c, o.compile e = .ok c) ∨
        target = .stack ∧ ∃ k, o.compile e = .error (.stackTooDeep k maxStackDepth)) ∧
      (∀ x, o.compile e = .error (.missingVariable x) →
        ∃ s, Reads s d ∧ s ∉ d.atomic.vars ∧ s.name = x) ∧
      (target = .stack → (∃ c, o.compile e = .ok c) → ∀ s, Reads s d → s ∈ d.atomic.vars) := by
  intro o d
  have hd : Canonical d := closed_canonical.simplified o (constructible_canonical he)
  have hfails : FailsAs (fun err => Unplaced (fun s => lookupLast s d.atomic.vars.zipIdx) d err ∨
      target = .stack ∧ TooDeep err) (o.compile e) :=
    (o.programFor_fails d.atomic.vars hd).bind fun p _ => .ok _
  refine ⟨fun hreads => ?_, fun x hx => ?_, fun ht hc s hs => ?_⟩
  · cases hc : o.compile e with
    | ok c => exact .inl ⟨c, rfl⟩
    | error err =>
      rcases hfails err hc with ⟨s, hs, hnone, -⟩ | ⟨ht, k, rfl⟩
      · exact absurd (hreads s hs) (lookupLast_zipIdx_eq_none.1 hnone)
      · exact .inr ⟨ht, k, rfl⟩
  · rcases hfails _ hx with ⟨s, hs, hnone, hname⟩ | ⟨-, k, hdeep⟩
    · exact ⟨s, hs, lookupLast_zipIdx_eq_none.1 hnone, (Error.missingVariable.inj hname).symm⟩
    · cases hdeep
  · obtain ⟨c, hc⟩ := hc
    obtain ⟨p, hp, -⟩ := except_bind_eq_ok.1 hc
    exact mem_of_programFor ht hp hs

/-- The cosine reads its argument, and expansion keeps it. -/
theorem compile_own_parameters_cosine :
    ∃ c, compile ⟨none, 0, .heap⟩ (Builtin.cos.on [ofName "x"]) = .ok c := by
  have hcos : Builtin.ofDefinition? Builtin.cos.definition = some .cos := by decide +kernel
  have hvars : (Builtin.cos.on [ofName "x"]).atomic.vars = [Symbol.ofName "x"] := by decide +kernel
  have he : Constructible (Builtin.cos.on [ofName "x"]) :=
    .callOf rfl (closed_constructible.builtin .cos) (List.forall_mem_singleton.2 (.var _ _))
  refine ((compile_own_parameters 0 .heap he).1 fun s hs => ?_).resolve_right fun h => by cases h.1
  have hs : Reads s (Builtin.cos.on [ofName "x"]) := hs
  show s ∈ (Builtin.cos.on [ofName "x"]).atomic.vars
  rw [hvars]
  cases hs with
  | argument _ he hr =>
    rw [List.mem_singleton.1 he] at hr
    cases hr
    exact List.mem_cons_self
  | body hnone _ => cases hnone.symm.trans hcos

/-- The difference `tan(x) - sin(x) / cos(x)`, which expansion cancels. -/
def cancelled : Expr :=
  subtract (Builtin.tan.on [ofName "x"])
    (divide (applyOf .sin (ofName "x")) (Builtin.cos.on [ofName "x"]))

theorem constructible_cancelled : Constructible cancelled := by
  have hx : Constructible (ofName "x") := .var _ _
  have hcall (f : Builtin) (hl : 1 = f.definition.params.length) :
      Constructible (f.on [ofName "x"]) :=
    .callOf hl (closed_constructible.builtin f) (List.forall_mem_singleton.2 hx)
  exact closed_constructible.subtract (hcall .tan (by decide))
    (closed_constructible.divide (.apply .sin hx) (hcall .cos (by decide)))

/-- Its atomic form is zero and has no variables, but the code reads one, in either form. -/
theorem not_compile_cancelled :
    Constructible cancelled ∧
      ∀ target, compile ⟨none, 0, target⟩ cancelled = .error (.missingVariable "x") := by
  refine ⟨constructible_cancelled, fun target => ?_⟩
  have hmissing : (compile ⟨none, 0, target⟩ cancelled).map (fun _ => ()) =
      .error (.missingVariable "x") := by
    cases target with
    | stack => decide +kernel
    | heap => decide +kernel
  cases hc : compile ⟨none, 0, target⟩ cancelled with
  | ok c =>
    rw [hc] at hmissing
    cases hmissing
  | error err =>
    rw [hc] at hmissing
    cases hmissing
    rfl

end CompileOptions

end Symbolic
