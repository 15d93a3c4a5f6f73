import Symbolic.Expr.Builtin
import Symbolic.Proofs.Expr.Variables
import Symbolic.Proofs.Numeric.Evaluate

/-!
What variables of bodies mean. A body may read variables that are not parameters of its function.
Where it is called in the body of another function that has a parameter of that name, the evaluator
takes the parameter, which it has bound by then; expansion leaves the variable as it stands. So the
two can agree only where that does not happen (`Lexical`). The constructors and substitution keep that
(`kept_scoped`).
-/

namespace Symbolic.Expr

mutual

/-- The variables that the bodies of the called functions read and that are no parameters there. -/
def loose : Expr → List Symbol
  | const _ | var _ _ => []
  | sum es => looseAll es
  | product es => looseAll es
  | pow b p => loose b ++ loose p
  | apply _ e => loose e
  | call _ ps b es => (occurrences b ++ loose b).filter (· ∉ ps) ++ looseAll es

def looseAll : List Expr → List Symbol
  | [] => []
  | e :: es => loose e ++ looseAll es

end

/-- The variables whose values matter: those that occur, and the loose ones. -/
def needs (e : Expr) : List Symbol := occurrences e ++ loose e

/-- No function has a parameter that is loose in its body, nor has any function that is called in a
body. -/
inductive Lexical : Expr → Prop where
  | const (c : Rat) : Lexical (const c)
  | var (s : Symbol) (k : Site) : Lexical (var s k)
  | sum {es : List Expr} : (∀ e ∈ es, Lexical e) → Lexical (sum es)
  | product {es : List Expr} : (∀ e ∈ es, Lexical e) → Lexical (product es)
  | pow {b p : Expr} : Lexical b → Lexical p → Lexical (pow b p)
  | apply {f : Primitive} {e : Expr} : Lexical e → Lexical (apply f e)
  | call {f : String} {ps : List Symbol} {b : Expr} {es : List Expr} :
      (∀ s ∈ loose b, s ∉ ps) → Lexical b → (∀ e ∈ es, Lexical e) → Lexical (call f ps b es)

/-- All functions that are called, in bodies too, are other than those defined from the start, and
take as many arguments as they have parameters. -/
inductive OwnCalls : Expr → Prop where
  | const (c : Rat) : OwnCalls (const c)
  | var (s : Symbol) (k : Site) : OwnCalls (var s k)
  | sum {es : List Expr} : (∀ e ∈ es, OwnCalls e) → OwnCalls (sum es)
  | product {es : List Expr} : (∀ e ∈ es, OwnCalls e) → OwnCalls (product es)
  | pow {b p : Expr} : OwnCalls b → OwnCalls p → OwnCalls (pow b p)
  | apply {f : Primitive} {e : Expr} : OwnCalls e → OwnCalls (apply f e)
  | call {f : String} {ps : List Symbol} {b : Expr} {es : List Expr} :
      Builtin.ofDefinition? ⟨f, ps, b⟩ = none → es.length = ps.length → OwnCalls b →
        (∀ e ∈ es, OwnCalls e) → OwnCalls (call f ps b es)

section Needs

variable {s : Symbol} {es : List Expr} {b p : Expr}

theorem mem_looseAll : s ∈ looseAll es ↔ ∃ e ∈ es, s ∈ loose e := by
  induction es with
  | nil => simp [looseAll]
  | cons e es ih => rw [looseAll, List.mem_append, ih, List.exists_mem_cons_iff]

theorem mem_needsAll : s ∈ occurrencesAll es ++ looseAll es ↔ ∃ e ∈ es, s ∈ needs e := by
  simp only [needs, List.mem_append, mem_occurrencesAll, mem_looseAll, and_or_left, exists_or]

theorem mem_needs_sum : s ∈ needs (sum es) ↔ ∃ e ∈ es, s ∈ needs e := mem_needsAll

theorem mem_needs_product : s ∈ needs (product es) ↔ ∃ e ∈ es, s ∈ needs e := mem_needsAll

theorem mem_needs_pow : s ∈ needs (pow b p) ↔ s ∈ needs b ∨ s ∈ needs p := by
  simp only [needs, occurrences, loose, List.mem_append]
  exact or_or_or_comm

variable {f : String} {ps : List Symbol}

theorem mem_loose_call :
    s ∈ loose (call f ps b es) ↔ (s ∈ needs b ∧ s ∉ ps) ∨ ∃ e ∈ es, s ∈ loose e := by
  simp only [loose, List.mem_append, List.mem_filter, decide_eq_true_eq, mem_looseAll, needs]

theorem mem_needs_call :
    s ∈ needs (call f ps b es) ↔ (s ∈ needs b ∧ s ∉ ps) ∨ ∃ e ∈ es, s ∈ needs e := by
  rw [needs, List.mem_append, mem_loose_call, or_left_comm, ← mem_needsAll, List.mem_append,
    mem_looseAll]
  rfl

end Needs

theorem nodewise_lexical : Nodewise Lexical where
  const := .const
  site _ := .var _ _
  sum := ⟨fun h => by cases h; assumption, .sum⟩
  product := ⟨fun h => by cases h; assumption, .product⟩
  pow := ⟨fun h => by cases h; exact ⟨by assumption, by assumption⟩, fun h => .pow h.1 h.2⟩
  apply := ⟨fun h => by cases h; assumption, .apply⟩

theorem nodewise_ownCalls : Nodewise OwnCalls where
  const := .const
  site _ := .var _ _
  sum := ⟨fun h => by cases h; assumption, .sum⟩
  product := ⟨fun h => by cases h; assumption, .product⟩
  pow := ⟨fun h => by cases h; exact ⟨by assumption, by assumption⟩, fun h => .pow h.1 h.2⟩
  apply := ⟨fun h => by cases h; assumption, .apply⟩

/-- Variables mean the same wherever the bodies of the functions are put. -/
structure Scoped (e : Expr) : Prop where
  calls : OwnCalls e
  lexical : Lexical e

theorem scoped_iff {e : Expr} : Scoped e ↔ OwnCalls e ∧ Lexical e :=
  ⟨fun h => ⟨h.calls, h.lexical⟩, fun h => ⟨h.1, h.2⟩⟩

theorem nodewise_scoped : Nodewise Scoped := by
  rw [funext fun e => propext (scoped_iff (e := e))]
  exact nodewise_ownCalls.and nodewise_lexical

theorem scoped_call {f : String} {ps : List Symbol} {b : Expr} {es : List Expr} :
    Scoped (call f ps b es) ↔ Builtin.ofDefinition? ⟨f, ps, b⟩ = none ∧ es.length = ps.length ∧
      (∀ s ∈ loose b, s ∉ ps) ∧ Scoped b ∧ ∀ e ∈ es, Scoped e := by
  constructor
  · rintro ⟨hc, hl⟩
    cases hc with
    | call hf hn hb hes =>
      cases hl with
      | call hs hb' hes' => exact ⟨hf, hn, hs, ⟨hb, hb'⟩, fun e he => ⟨hes e he, hes' e he⟩⟩
  · rintro ⟨hf, hn, hs, hb, hes⟩
    exact ⟨.call hf hn hb.calls fun e he => (hes e he).calls,
      .call hs hb.lexical fun e he => (hes e he).lexical⟩

theorem kept_scoped : Kept Scoped := by
  refine nodewise_scoped.kept (fun s k => ⟨.var s k, .var s k⟩) ?_ ?_ ?_
  · intro f ps b as es h hn hes
    obtain ⟨hf, -, hs, hb, -⟩ := scoped_call.1 h
    exact scoped_call.2 ⟨hf, hn, hs, hb, hes⟩
  · intro f ps b es h
    exact (scoped_call.1 h).2.2.2.2
  · intro f ps b es h
    obtain ⟨-, hn, -, hb, -⟩ := scoped_call.1 h
    exact ⟨hn, hb⟩

end Symbolic.Expr
