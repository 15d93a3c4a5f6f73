import Symbolic.Program.Compile
import Symbolic.Proofs.Expr.Depth
import Symbolic.Proofs.Program.Parameters

/-!
How high a stack gets. A step takes its operands and leaves one value, so the heights are a matter of
the numbers of operands (`climb`). The code of an expression leaves one value on top of any stack and
takes nothing from below (`lifts_toPostfix`).

The depth that is counted while code is linked is the greatest height of a run (`deepest_of_link`), and
linking is refused for want of depth exactly if the steps lead above the limit (`tooDeep_iff`). Both
come to hold of compiled functions in `CompileOptions.compile_stack_heights`.
-/

namespace Symbolic

/-- The height of a stack after steps that take so many operands and leave one value each; none if an
operand would be missing. -/
def climb (h : Nat) : List Nat → Option Nat
  | [] => some h
  | a :: as => if a ≤ h then climb (h - a + 1) as else none

/-- The greatest height on the way. -/
def peak (h : Nat) : List Nat → Nat
  | [] => h
  | a :: as => max h (peak (h - a + 1) as)

theorem climb_append (h : Nat) (as bs : List Nat) :
    climb h (as ++ bs) = (climb h as).bind fun k => climb k bs := by
  induction as generalizing h with
  | nil => rfl
  | cons a as ih =>
    rw [List.cons_append, climb, climb]
    split
    · exact ih _
    · rfl

theorem climb_cons {h a k : Nat} {as : List Nat} (hk : climb h (a :: as) = some k) :
    a ≤ h ∧ climb (h - a + 1) as = some k := by
  rw [climb] at hk
  split at hk
  · next ha => exact ⟨ha, hk⟩
  · cases hk

theorem le_peak (h : Nat) (as : List Nat) : h ≤ peak h as := by
  cases as with
  | nil => exact Nat.le_refl h
  | cons a as => exact Nat.le_max_left _ _

/-- Each step on the way finds its operands, at a height of the peak at most. -/
theorem climb_take {h k : Nat} {as : List Nat} (hk : climb h as = some k) (i : Nat) :
    ∃ j, climb h (as.take i) = some j ∧ j ≤ peak h as ∧ ∀ a, as[i]? = some a → a ≤ j := by
  induction as generalizing h i with
  | nil => exact ⟨h, by rw [List.take_nil]; rfl, Nat.le_refl h, fun a ha => by cases ha⟩
  | cons a as ih =>
    obtain ⟨ha, hk⟩ := climb_cons hk
    cases i with
    | zero =>
      refine ⟨h, rfl, le_peak h _, ?_⟩
      rintro b ⟨⟩
      exact ha
    | succ i =>
      obtain ⟨j, hj, hle, hnext⟩ := ih hk i
      refine ⟨j, ?_, hle.trans (Nat.le_max_right _ _), hnext⟩
      rw [List.take_succ_cons, climb, if_pos ha, hj]

theorem exists_climb_eq_peak {h k : Nat} {as : List Nat} (hk : climb h as = some k) :
    ∃ i, climb h (as.take i) = some (peak h as) := by
  induction as generalizing h with
  | nil => exact ⟨0, rfl⟩
  | cons a as ih =>
    obtain ⟨ha, hk⟩ := climb_cons hk
    obtain ⟨i, hi⟩ := ih hk
    rw [peak]
    rcases Nat.le_total h (peak (h - a + 1) as) with hle | hle
    · refine ⟨i + 1, ?_⟩
      rw [List.take_succ_cons, climb, if_pos ha, hi, Nat.max_eq_right hle]
    · exact ⟨0, by rw [Nat.max_eq_left hle]; rfl⟩

namespace Postfix

def arity : Postfix → Nat
  | constant _ | symbol _ | invalid _ => 0
  | unary _ => 1
  | binary _ => 2

def growth (x : Postfix) : Int := 1 - x.arity

/-- By how much a stack grows with all steps together. -/
def growthAll (xs : List Postfix) : Int := xs.foldr (fun x n => x.growth + n) 0

/-- The steps turn `a` values on top of any stack into `b` values. -/
def Lifts (xs : List Postfix) (a b : Nat) : Prop :=
  ∀ h, climb (h + a) (xs.map arity) = some (h + b)

theorem Lifts.append {xs ys : List Postfix} {a b c : Nat} (hx : Lifts xs a b) (hy : Lifts ys b c) :
    Lifts (xs ++ ys) a c := by
  intro h
  rw [List.map_append, climb_append, hx]
  exact hy h

theorem Lifts.frame {xs : List Postfix} {a b : Nat} (hx : Lifts xs a b) (n : Nat) :
    Lifts xs (n + a) (n + b) := by
  intro h
  rw [← Nat.add_assoc, ← Nat.add_assoc]
  exact hx (h + n)

theorem lifts_singleton (x : Postfix) : Lifts [x] x.arity 1 := by
  intro h
  rw [List.map_singleton, climb, if_pos (Nat.le_add_left _ _), Nat.add_sub_cancel]
  rfl

theorem arity_toPostfix (op : Operation) : op.toPostfix.arity = op.arity := by
  cases op <;> rfl

end Postfix

open Postfix

namespace Expr

variable {again : Expr → List Postfix} {n : Nat} {es : List Expr}

/-- Code that joins further operands leaves the stack as high as it was. -/
theorem lifts_rest (f : BinaryOp) (h : ∀ e ∈ es, Lifts (postfixWith again e) 0 1) :
    Lifts (postfixRest again f es) 1 1 := by
  induction es with
  | nil => exact fun h => rfl
  | cons e es ih =>
    obtain ⟨he, hes⟩ := List.forall_mem_cons.1 h
    rw [postfixRest]
    exact (he.frame 1).append ((lifts_singleton (.binary f)).append (ih hes))

theorem lifts_joined (f : BinaryOp) {e : Expr}
    (h : ∀ d ∈ e :: es, Lifts (postfixWith again d) 0 1) :
    Lifts (postfixWith again e ++ postfixRest again f es) 0 1 := by
  obtain ⟨he, hes⟩ := List.forall_mem_cons.1 h
  exact he.append (lifts_rest f hes)

theorem lifts_all (h : ∀ e ∈ es, Lifts (postfixWith again e) 0 1) :
    Lifts (postfixAll again es) 0 es.length := by
  induction es with
  | nil => exact fun h => rfl
  | cons e es ih =>
    obtain ⟨he, hes⟩ := List.forall_mem_cons.1 h
    rw [postfixAll, List.length_cons, Nat.add_comm es.length]
    exact he.append ((ih hes).frame 1)

/-- The code of an expression pushes one value, if that of the bodies does; calls are on as many
arguments as the functions have parameters. -/
theorem lifts_postfixWith (ha : ∀ e, Canonical e → callDepth e < n → Lifts (again e) 0 1) {e : Expr}
    (hc : Canonical e) (hn : callDepth e ≤ n) : Lifts (postfixWith again e) 0 1 := by
  have hall {es : List Expr} (hes : ∀ e ∈ es, Canonical e) (hn : callDepths es ≤ n)
      (ih : ∀ e ∈ es, Canonical e → callDepth e ≤ n → Lifts (postfixWith again e) 0 1) :
      ∀ e ∈ es, Lifts (postfixWith again e) 0 1 :=
    fun e he => ih e he (hes e he) (callDepths_le.1 hn e he)
  induction e with
  | const c => exact lifts_singleton (.constant c)
  | var s k => exact lifts_singleton (.symbol s)
  | sum es ih =>
    cases es with
    | nil => exact lifts_singleton (.invalid .noOperands)
    | cons e es => exact lifts_joined .add (hall hc.operands hn ih)
  | product es ih =>
    cases es with
    | nil => exact lifts_singleton (.invalid .noOperands)
    | cons e es => exact lifts_joined .multiply (hall hc.operands hn ih)
  | pow b p ihb ihp =>
    obtain ⟨hb, hp⟩ := Nat.max_le.1 hn
    have ihb := ihb (hc.operands b (by simp [operands])) hb
    have ihp := ihp (hc.operands p (by simp [operands])) hp
    rw [postfixWith]
    exact (ihb.append (ihp.frame 1)).append (lifts_singleton (.binary .power))
  | apply f e ih =>
    rw [postfixWith]
    exact (ih (hc.operands e List.mem_cons_self) hn).append (lifts_singleton (.unary f.operation))
  | call f ps b es _ ih =>
    rw [callDepth] at hn
    rw [postfixWith]
    split
    · next p hp =>
      have hes : Lifts (postfixAll again es) 0 es.length :=
        lifts_all (hall hc.operands (by omega) ih)
      have hlast := lifts_singleton p.operation.toPostfix
      rw [arity_toPostfix, arity_of_ofDefinition? hp, ← (closed_canonical.body hc).1] at hlast
      exact hes.append hlast
    · have hdepth : callDepth (inlined ps b es) ≤ callDepth b + callDepths es :=
        callDepth_inlined_le (callDepths_le.1 (Nat.le_refl _))
      exact ha _ (closed_canonical.inlined hc) (by omega)

theorem lifts_postfixWithin {e : Expr} (hc : Canonical e) (hn : callDepth e < n) :
    Lifts (postfixWithin n e) 0 1 := by
  induction n generalizing e with
  | zero => exact absurd hn (Nat.not_lt_zero _)
  | succ n ih => exact lifts_postfixWith (fun e hc hn => ih hc hn) hc (Nat.le_of_lt_succ hn)

/-- The code of an expression pushes one value and takes nothing from below. -/
theorem lifts_toPostfix {e : Expr} (hc : Canonical e) : Lifts e.toPostfix 0 1 := by
  refine lifts_postfixWithin hc ?_
  rw [nesting_eq_callDepth]
  exact Nat.lt_succ_self _

end Expr

/-! The depth that is counted. -/

section Link

variable {index : Symbol → Option Nat} {d d' : Draft}

/-- Nothing but the depth keeps the step from being linked: a variable has a place, and the step is
not invalid. -/
def Postfix.Placed (index : Symbol → Option Nat) : Postfix → Prop
  | symbol s => index s ≠ none
  | invalid _ => False
  | _ => True

/-- The draft after a step: one instruction more, with as many operands, and the new height. -/
structure Draft.Extends (d : Draft) (x : Postfix) (d' : Draft) : Prop where
  code : d'.code.toList.map StackOp.arity = d.code.toList.map StackOp.arity ++ [x.arity]
  depth : d'.depth = d.depth - x.arity + 1
  deepest : d.depth ≤ d.deepest → d'.deepest = max d.deepest d'.depth
  limit : d.depth ≤ maxStackDepth → d'.depth ≤ maxStackDepth

/-- A step extends the draft, or the stack would get too deep, or there is another fault. -/
theorem link_cases (index : Symbol → Option Nat) {x : Postfix} (hx : x.arity ≤ d.depth) :
    (∃ d', d.link index x = .ok d' ∧ d.Extends x d' ∧ x.Placed index) ∨
      (∃ n, d.link index x = .error (.stackTooDeep n maxStackDepth)) ∧
        maxStackDepth ≤ d.depth ∧ x.arity = 0 ∧ x.Placed index ∨
      (∃ err, d.link index x = .error err ∧ ∀ n m, err ≠ .stackTooDeep n m) ∧ ¬x.Placed index := by
  have hpush (op : StackOp) (hop : op.arity = 0) (h0 : x.arity = 0) (hp : x.Placed index) :
      (∃ d', d.push op = .ok d' ∧ d.Extends x d' ∧ x.Placed index) ∨
        (∃ n, d.push op = .error (.stackTooDeep n maxStackDepth)) ∧
          maxStackDepth ≤ d.depth ∧ x.arity = 0 ∧ x.Placed index := by
    rw [Draft.push]
    split
    · next hlt => exact .inl ⟨_, rfl, ⟨by simp [hop, h0], by simp [h0], fun _ => rfl, fun _ => hlt⟩, hp⟩
    · next hge => exact .inr ⟨⟨_, rfl⟩, Nat.le_of_not_lt hge, h0, hp⟩
  cases x with
  | constant c => exact (hpush _ rfl rfl trivial).imp_right .inl
  | symbol s =>
    rw [Draft.link]
    cases hs : index s with
    | some i =>
      have hplaced : Postfix.Placed index (.symbol s) := by
        rw [Postfix.Placed, hs]
        exact Option.some_ne_none i
      exact (hpush _ rfl rfl hplaced).imp_right .inl
    | none => exact .inr (.inr ⟨⟨_, rfl, fun _ _ => by simp⟩, fun h => h hs⟩)
  | unary f =>
    have hx : 1 ≤ d.depth := hx
    refine .inl ⟨_, rfl, ⟨by simp [StackOp.arity, arity], ?_, ?_, id⟩, trivial⟩
    · show d.depth = d.depth - 1 + 1
      omega
    · exact fun h => (Nat.max_eq_left h).symm
  | binary f =>
    have hx : 2 ≤ d.depth := hx
    refine .inl ⟨_, rfl, ⟨by simp [StackOp.arity, arity], ?_, ?_, ?_⟩, trivial⟩
    · show d.depth - 1 = d.depth - 2 + 1
      omega
    · intro h
      show d.deepest = max d.deepest (d.depth - 1)
      omega
    · intro h
      show d.depth - 1 ≤ maxStackDepth
      omega
  | invalid f => exact .inr (.inr ⟨⟨_, rfl, fun _ _ => by simp⟩, id⟩)

/-- Where linking comes to an end, the code has as many operands as the steps, and the greatest depth
is the greatest height, within the limit. -/
theorem deepest_of_link {xs : List Postfix} {k : Nat} (hd : xs.foldlM (Draft.link index) d = .ok d')
    (hk : climb d.depth (xs.map arity) = some k) (hdeep : d.depth ≤ d.deepest)
    (hlimit : d.deepest ≤ maxStackDepth) :
    d'.code.toList.map StackOp.arity = d.code.toList.map StackOp.arity ++ xs.map arity ∧
      d'.deepest = max d.deepest (peak d.depth (xs.map arity)) ∧ d'.deepest ≤ maxStackDepth := by
  induction xs generalizing d with
  | nil =>
    cases hd
    exact ⟨(List.append_nil _).symm, (Nat.max_eq_left hdeep).symm, hlimit⟩
  | cons x xs ih =>
    obtain ⟨hx, hk⟩ := climb_cons hk
    obtain ⟨d₁, hd₁, hd⟩ := except_bind_eq_ok.1 hd
    rcases link_cases index hx with ⟨d₂, hd₂, hext, -⟩ | ⟨⟨n, hn⟩, -⟩ | ⟨⟨err, herr, -⟩, -⟩
    · obtain rfl : d₁ = d₂ := Except.ok.inj (hd₁.symm.trans hd₂)
      have hdeep₁ := hext.deepest hdeep
      have hlimit₁ := hext.limit (hdeep.trans hlimit)
      rw [← hext.depth] at hk
      obtain ⟨hcode, hmax, hle⟩ := ih hd hk (by omega) (by omega)
      refine ⟨by rw [hcode, hext.code, List.append_assoc]; rfl, ?_, hle⟩
      have hpeak := le_peak d₁.depth (xs.map arity)
      rw [hmax, hdeep₁, List.map_cons, peak, ← hext.depth]
      omega
    · rw [hd₁] at hn
      cases hn
    · rw [hd₁] at herr
      cases herr

/-- Linking fails for want of depth exactly if the steps lead above the limit and there is no other
fault up to there. -/
theorem tooDeep_iff {xs : List Postfix} {k : Nat} (hk : climb d.depth (xs.map arity) = some k)
    (hlimit : d.depth ≤ maxStackDepth) :
    (∃ n m, xs.foldlM (Draft.link index) d = .error (.stackTooDeep n m)) ↔
      ∃ j, maxStackDepth < d.depth + growthAll (xs.take j) ∧ ∀ x ∈ xs.take j, x.Placed index := by
  induction xs generalizing d with
  | nil =>
    constructor
    · rintro ⟨n, m, h⟩
      cases h
    · rintro ⟨j, hj, -⟩
      rw [List.take_nil] at hj
      simp only [growthAll, List.foldr_nil] at hj
      omega
  | cons x xs ih =>
    obtain ⟨hx, hk⟩ := climb_cons hk
    rw [List.foldlM_cons]
    -- the draft itself is within the limit, so a step at least is taken
    have hsucc : (∃ j, maxStackDepth < d.depth + growthAll ((x :: xs).take j) ∧
        ∀ y ∈ (x :: xs).take j, y.Placed index) ↔
        x.Placed index ∧ ∃ j,
          (maxStackDepth : Int) < (d.depth - x.arity + 1 : Nat) + growthAll (xs.take j) ∧
          ∀ y ∈ xs.take j, y.Placed index := by
      have hgrowth (j : Nat) : d.depth + growthAll ((x :: xs).take (j + 1)) =
          (d.depth - x.arity + 1 : Nat) + growthAll (xs.take j) := by
        rw [List.take_succ_cons, growthAll, List.foldr_cons, ← growthAll, growth]
        omega
      constructor
      · rintro ⟨j, hj, hp⟩
        cases j with
        | zero =>
          simp only [List.take_zero, growthAll, List.foldr_nil] at hj
          omega
        | succ j =>
          rw [hgrowth] at hj
          rw [List.take_succ_cons, List.forall_mem_cons] at hp
          exact ⟨hp.1, j, hj, hp.2⟩
      · rintro ⟨hpx, j, hj, hp⟩
        refine ⟨j + 1, by rwa [hgrowth], ?_⟩
        rw [List.take_succ_cons]
        exact List.forall_mem_cons.2 ⟨hpx, hp⟩
    rw [hsucc]
    rcases link_cases index hx with ⟨d₁, hd₁, hext, hp⟩ | ⟨⟨n, hn⟩, hge, h0, hp⟩ | ⟨⟨err, herr, hdeep⟩, hp⟩
    · rw [hd₁, ← hext.depth]
      rw [← hext.depth] at hk
      exact (ih hk (hext.limit hlimit)).trans (and_iff_right hp).symm
    · rw [hn]
      refine iff_of_true ⟨n, maxStackDepth, rfl⟩ ⟨hp, 0, ?_, by simp⟩
      rw [List.take_zero, growthAll, List.foldr_nil, h0]
      omega
    · rw [herr]
      refine iff_of_false ?_ fun h => hp h.1
      rintro ⟨n, m, h⟩
      exact hdeep n m (Except.error.inj h)

end Link

/-! Running the code. -/

namespace StackCode

variable {α : Type} [Scalar α] {params : Array α} {c : StackCode}

def stackAfter (c : StackCode) (params : Array α) (k : Nat) : List α :=
  (c.code.take k).foldl (step params) []

/-- A run never lacks an operand, ends with the result alone, and gets exactly as high as the depth
says. -/
structure Balanced (c : StackCode) (params : Array α) : Prop where
  operands : ∀ k (hk : k < c.code.length), c.code[k].arity ≤ (c.stackAfter params k).length
  result : c.stackAfter params c.code.length = [c.run params]
  bound : ∀ k, (c.stackAfter params k).length ≤ c.maxDepth
  reached : ∃ k, (c.stackAfter params k).length = c.maxDepth

theorem length_step {stack : List α} {op : StackOp} (h : op.arity ≤ stack.length) :
    (step params stack op).length = stack.length - op.arity + 1 := by
  cases op with
  | constant q => rfl
  | parameter i => rfl
  | unary f =>
    obtain ⟨x, rest, rfl⟩ := List.exists_cons_of_length_pos h
    rfl
  | binary f =>
    obtain ⟨y, rest, rfl⟩ := List.exists_cons_of_length_pos (Nat.lt_of_lt_of_le Nat.two_pos h)
    obtain ⟨x, rest, rfl⟩ := List.exists_cons_of_length_pos (Nat.le_of_succ_le_succ h)
    rfl

/-- The height of a stack is a matter of the numbers of operands. -/
theorem length_run {stack : List α} {ops : List StackOp} {k : Nat}
    (hk : climb stack.length (ops.map StackOp.arity) = some k) :
    (ops.foldl (step params) stack).length = k := by
  induction ops generalizing stack with
  | nil => exact Option.some.inj hk
  | cons op ops ih =>
    obtain ⟨hop, hk⟩ := climb_cons hk
    have hlength : (step params stack op).length = stack.length - op.arity + 1 := length_step hop
    rw [← hlength] at hk
    exact ih hk

/-- Code that leads from nothing to one value, with its peak for its depth. -/
theorem balanced_of_climb (h : climb 0 (c.code.map StackOp.arity) = some 1)
    (hdepth : c.maxDepth = peak 0 (c.code.map StackOp.arity)) (params : Array α) :
    c.Balanced params := by
  have hafter {k j : Nat} (hj : climb 0 ((c.code.map StackOp.arity).take k) = some j) :
      (c.stackAfter params k).length = j := by
    rw [← List.map_take] at hj
    exact length_run hj
  constructor
  case operands =>
    intro k hk
    obtain ⟨j, hj, -, hnext⟩ := climb_take h k
    rw [hafter hj]
    exact hnext _ (by simp [hk])
  case result =>
    have hlength : (c.stackAfter params c.code.length).length = 1 :=
      hafter (by rwa [← List.map_take, List.take_length])
    obtain ⟨x, hx⟩ := List.length_eq_one_iff.1 hlength
    rw [run, runOn, ← List.take_length (l := c.code), ← stackAfter, List.take_length, hx, pop]
  case bound =>
    intro k
    obtain ⟨j, hj, hle, -⟩ := climb_take h k
    rw [hafter hj, hdepth]
    exact hle
  case reached =>
    obtain ⟨i, hi⟩ := exists_climb_eq_peak h
    exact ⟨i, (hafter hi).trans hdepth.symm⟩

/-- The stack code of an expression is balanced, and its depth is within the limit. -/
theorem ofExpr_balanced {index : Symbol → Option Nat} {e : Expr} (he : e.Canonical)
    (hc : ofExpr index e = .ok c) :
    c.maxDepth ≤ maxStackDepth ∧ ∀ {α : Type} [Scalar α] (params : Array α), c.Balanced params := by
  rw [ofExpr_eq] at hc
  obtain ⟨d, hd, rfl⟩ := except_map_eq_ok.1 hc
  have hlifts : climb 0 (e.toPostfix.map arity) = some 1 := Expr.lifts_toPostfix he 0
  obtain ⟨hcode, hdeepest, hlimit⟩ := deepest_of_link hd hlifts (Nat.le_refl 0) (Nat.zero_le _)
  refine ⟨hlimit, fun params => balanced_of_climb ?_ ?_ params⟩
  · exact (congrArg (climb 0) hcode).trans hlifts
  · exact (hdeepest.trans (Nat.zero_max _)).trans (congrArg (peak 0) hcode.symm)

/-- Code is refused for want of depth exactly if the steps of the expression lead above the limit and
there is no other fault up to there. -/
theorem ofExpr_tooDeep_iff (index : Symbol → Option Nat) {e : Expr} (he : e.Canonical) :
    (∃ n m, ofExpr index e = .error (.stackTooDeep n m)) ↔
      ∃ k, maxStackDepth < growthAll (e.toPostfix.take k) ∧
        ∀ x ∈ e.toPostfix.take k, x.Placed index := by
  rw [ofExpr_eq]
  simp only [except_map_eq_error]
  rw [tooDeep_iff (Expr.lifts_toPostfix he 0) (Nat.zero_le _)]
  simp only [Draft.empty, Int.natCast_zero, Int.zero_add]

end StackCode

namespace CompileOptions

/-- A stack program that an expression is compiled to as it stands is balanced, within the limit. The
expression is refused for want of depth exactly if its postfix code leads above the limit before a
variable is come upon that is no parameter; so, where all variables of the code are parameters, exactly
if the code leads above the limit at all. -/
theorem compile_stack_heights (params : Option (List Symbol)) {e : Expr} (he : Constructible e) :
    let o : CompileOptions := ⟨params, 0, .stack⟩
    (∀ f, o.compile e = .ok f → ∃ c, f.program = .stack c ∧ c.maxDepth ≤ maxStackDepth ∧
      ∀ {α : Type} [Scalar α] (xs : Array α), c.Balanced xs) ∧
    ((∃ n m, o.compile e = .error (.stackTooDeep n m)) ↔
      ∃ k, maxStackDepth < growthAll (e.toPostfix.take k) ∧
        ∀ s, .symbol s ∈ e.toPostfix.take k → s ∈ o.paramsFor e) ∧
    ((∀ s, .symbol s ∈ e.toPostfix → s ∈ o.paramsFor e) →
      ((∃ n m, o.compile e = .error (.stackTooDeep n m)) ↔
        ∃ k, maxStackDepth < growthAll (e.toPostfix.take k))) := by
  intro o
  let index := fun s => lookupLast s (o.paramsFor e).zipIdx
  have hcompile : o.compile e =
      (StackCode.ofExpr index e).map fun c => ⟨e, o.paramsFor e, .stack c⟩ := by
    show (StackCode.ofExpr index e >>= fun c => .ok (Program.stack c)) >>= _ = _
    cases StackCode.ofExpr index e <;> rfl
  have hc : e.Canonical := Expr.constructible_canonical he
  -- no step is invalid, so only variables can be without a place
  have hplaced (k : Nat) : (∀ x ∈ e.toPostfix.take k, x.Placed index) ↔
      ∀ s, .symbol s ∈ e.toPostfix.take k → s ∈ o.paramsFor e := by
    constructor
    · exact fun h s hs => lookupLast_zipIdx_eq_none.not_left.1 (h _ hs)
    · intro h x hx
      cases x with
      | symbol s => exact lookupLast_zipIdx_eq_none.not_left.2 (h s hx)
      | invalid f => exact not_invalid_mem_postfixWithin _ hc (List.mem_of_mem_take hx)
      | _ => trivial
  have htoo : (∃ n m, o.compile e = .error (.stackTooDeep n m)) ↔
      ∃ k, maxStackDepth < growthAll (e.toPostfix.take k) ∧
        ∀ s, .symbol s ∈ e.toPostfix.take k → s ∈ o.paramsFor e := by
    simp only [hcompile, except_map_eq_error, StackCode.ofExpr_tooDeep_iff index hc, hplaced]
  refine ⟨fun f hf => ?_, htoo, fun hall => htoo.trans ?_⟩
  · rw [hcompile] at hf
    obtain ⟨c, hcode, rfl⟩ := except_map_eq_ok.1 hf
    obtain ⟨hlimit, hrun⟩ := StackCode.ofExpr_balanced hc hcode
    exact ⟨c, rfl, hlimit, hrun⟩
  · exact exists_congr fun k => and_iff_left fun s hs => hall s (List.mem_of_mem_take hs)

open Symbolic.Expr

/-- The function `above(a, b) = a + max(a, b)`. -/
def above : Definition :=
  .ofNames "above" ["a", "b"] (sumOf [ofName "a", Builtin.max.on [ofName "a", ofName "b"]])

/-- The code of `above(x, 2)` is `x x 2 max +`, and three values are on the stack at most. -/
theorem compile_stack_heights_above :
    let e := above.on [ofName "x", const 2]
    (∃ c, compile ⟨some [.ofName "x"], 0, .stack⟩ e = .ok ⟨e, [.ofName "x"], .stack c⟩ ∧
      c.maxDepth = 3 ∧ ∀ xs : Array Float, c.Balanced xs) ∧
    ∀ k, growthAll (e.toPostfix.take k) ≤ maxStackDepth := by
  intro e
  have hsteps : e.toPostfix = [.symbol (.ofName "x"), .symbol (.ofName "x"), .constant 2,
      .binary .max, .binary .add] := by
    decide +kernel
  have hcompile : compile ⟨some [.ofName "x"], 0, .stack⟩ e = .ok ⟨e, [.ofName "x"], .stack
      ⟨[.parameter 0, .parameter 0, .constant 2, .binary .max, .binary .add], 3⟩⟩ := by
    show (StackCode.ofExpr _ e >>= fun c => .ok (Program.stack c)) >>= _ = _
    rw [StackCode.ofExpr_eq, hsteps]
    rfl
  have hvar (s : String) : Constructible (ofName s) := .var _ _
  have hbody : Constructible above.body := .sum <| Closed.forall_pair (hvar "a")
    (.callOf rfl (closed_constructible.builtin .max) (Closed.forall_pair (hvar "a") (hvar "b")))
  have he : Constructible e := .callOf rfl hbody (Closed.forall_pair (hvar "x") (.const 2))
  obtain ⟨hok, -, htoo⟩ := compile_stack_heights (some [.ofName "x"]) he
  constructor
  · obtain ⟨c, hc, -, hrun⟩ := hok _ hcompile
    cases hc
    exact ⟨_, hcompile, rfl, hrun⟩
  · intro k
    by_contra hk
    obtain ⟨n, m, herr⟩ := (htoo (by simp [hsteps, paramsFor])).2 ⟨k, not_le.1 hk⟩
    rw [hcompile] at herr
    cases herr

end CompileOptions

end Symbolic
