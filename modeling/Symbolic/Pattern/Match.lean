import Symbolic.Pattern.AssignmentSet
import Symbolic.Pattern.Blocks

/-!
Matching. A pattern is an expression some of whose variables are free: they stand for any
expression. Operands of a sum or product are matched as a whole: they are shared out in groups among
the operands of the pattern, in every possible way, and each group is matched as a sum or product of
its own.
-/

namespace Symbolic

/-- What matches an operand of a pattern: a function from targets to assignments. -/
abbrev Matcher := Expr → AssignmentSet

namespace Matcher

def inOrder : List Matcher → List Expr → AssignmentSet → AssignmentSet
  | m :: ms, e :: es, acc => if acc.isNone then acc else inOrder ms es (acc.inter (m e))
  | _, _, acc => acc

/-- The number whose binary digits mark the members of a group. -/
def groupCode (group : List Nat) : Nat := group.foldr (fun i code => 1 <<< i + code) 0

/-- The operands at the binary digits of a number, the lowest digit first. -/
def groupMembers : List Expr → Nat → List Expr
  | [], _ => []
  | e :: es, code => if code % 2 = 1 then e :: groupMembers es (code / 2)
    else groupMembers es (code / 2)

/-- A group as one expression; a group of one is that one. -/
def groupExpr (rebuild : List Expr → Expr) : List Expr → Expr
  | [e] => e
  | es => rebuild es

/-- What each group of operands matches to, by the code of the group, when it is asked for. -/
def groupTable (rebuild : List Expr → Expr) (es : List Expr) (m : Matcher) :
    Array (Thunk AssignmentSet) :=
  Array.ofFn fun code : Fin (1 <<< es.length) =>
    Thunk.mk fun _ => m (groupExpr rebuild (groupMembers es code))

/-- Match one group for each table. -/
def groupsInOrder :
    List (Array (Thunk AssignmentSet)) → List (List Nat) → AssignmentSet → AssignmentSet
  | t :: ts, g :: gs, acc =>
    if acc.isNone then acc
    else
      match t[groupCode g]? with
      | some found => groupsInOrder ts gs (acc.inter found.get)
      | none => .none
  | _, _, acc => acc

/-- Match operands in any order, in groups. -/
def commutative (rebuild : List Expr → Expr) (ms : List Matcher) (es : List Expr) :
    AssignmentSet :=
  if es.length < ms.length then .none
  else
    let tables := ms.map (groupTable rebuild es)
    .ofList ((Blocks.ordered es.length ms.length).flatMap fun groups =>
      (groupsInOrder tables groups .all).results)

end Matcher

open Symbolic.Matcher

mutual

/-- Match a target with a pattern whose variables `free` stand for anything. -/
def Expr.matcher (free : List Symbol) : Expr → Matcher
  | .var s _, e =>
    if free.contains s then .single (.single s e)
    else
      match e with
      | .var t _ => if s = t then .all else .none
      | _ => .none
  | .const c, .const d => if c = d then .all else .none
  | .sum ps, .sum es => commutative Expr.sumOf (Expr.matchers free ps) es
  | .product ps, .product es => commutative Expr.productOf (Expr.matchers free ps) es
  | .pow b p, .pow b' p' =>
    let found := Expr.matcher free b b'
    if found.isNone then found else found.inter (Expr.matcher free p p')
  | .apply f p, .apply g e => if f = g then Expr.matcher free p e else .none
  | .call f ss b ps, .call g ts b' es =>
    if Definition.same ⟨g, ts, b'⟩ ⟨f, ss, b⟩ then inOrder (Expr.matchers free ps) es .all
    else .none
  | _, _ => .none

def Expr.matchers (free : List Symbol) : List Expr → List Matcher
  | [] => []
  | p :: ps => (fun e => Expr.matcher free p e) :: Expr.matchers free ps

end

/-- An expression with free variables. -/
structure Pattern where
  expr : Expr
  free : List Symbol

namespace Pattern

/-- The pattern in which every variable is free. -/
def ofExpr (e : Expr) : Pattern := ⟨e, e.vars⟩

/-- The pattern with the given free variables, whether they occur or not. -/
def withFree (e : Expr) (free : List Symbol) : Pattern := ⟨e, Symbol.sorted free⟩

/-- The variables that occur and are not free: they match themselves alone. -/
def literals (p : Pattern) : List Symbol :=
  p.expr.vars.filter fun s => !p.free.contains s

/-- The pattern is a free variable, which matches anything. -/
def isWildcard (p : Pattern) : Bool :=
  match p.expr with
  | .var s _ => p.free.contains s
  | _ => false

def matches? (p : Pattern) (target : Expr) : AssignmentSet :=
  p.expr.matcher p.free target

end Pattern

end Symbolic
