import Symbolic.Expr.Atomic
import Symbolic.Search.Identity
import Symbolic.Search.Walk

/-!
The search for equal expressions: from an expression by rules, one place at a time, to others that
stand for the same value.
-/

namespace Symbolic

inductive Strategy where
  | wide
  | deep
deriving DecidableEq

/-- What a search goes by: the most steps from the start, if they are limited; the order; the
identities; and whether those of the functions that occur are added. -/
structure Search where
  depth : Option Nat
  strategy : Strategy
  identities : List Identity
  useDefinitions : Bool

namespace Search

/-- The number of steps that is taken where nothing else is said. -/
def defaultDepth : Nat := 3

/-- A number of steps that no search can take. -/
def unlimited : Nat := 1 <<< 62

def standard : Search := ⟨some defaultDepth, .wide, standardIdentities, true⟩

def rules (s : Search) (es : List Expr) : List Rule :=
  s.identities.flatMap Identity.rules ++
    if s.useDefinitions then definitionRules (distinctFunctions es) else []

/-- All that one step by a rule leads to, rule by rule. -/
def step (rules : List Rule) (e : Expr) : List Expr :=
  rules.flatMap fun r => r.apply e

def neighbours (s : Search) (e : Expr) : List Expr :=
  e.distinctOthers (step (s.rules [e]) e)

/-- The walk from an expression by some rules, up to the first expression that passes the test. -/
def walk (s : Search) (rules : List Rule) (test : Expr → Bool) (e : Expr) : Walk :=
  let bound := s.depth.getD unlimited
  let w := Walk.start test bound e
  if w.found then w
  else
    match s.strategy with
    | .wide => Walk.wide (step rules) test bound [e] w
    | .deep => Walk.deep (step rules) test bound e w

def members (s : Search) (e : Expr) : List Expr :=
  (s.walk (s.rules [e]) (fun _ => false) e).visited.reverse

/-- The search leads from `a` to an expression that is `b`, or is it in atomic form. -/
def proves (s : Search) (a b : Expr) : Bool :=
  let target := b.atomic
  (s.walk (s.rules [a, b]) (fun e => e.same b || e.atomic.same target) a).found

/-- The first of the expressions with the least cost; `e` stands for an empty list. -/
def cheapest (cost : Expr → Nat) (e : Expr) : List Expr → Expr
  | [] => e
  | f :: fs => cheapest cost (if cost f < cost e then f else e) fs

/-- The expression of least cost that the search reaches, the first one if there are several. -/
def simplestBy (s : Search) (cost : Expr → Nat) (e : Expr) : Expr :=
  cheapest cost e (s.members e)

def simplest (s : Search) (e : Expr) : Expr :=
  s.simplestBy Expr.size e

end Search

end Symbolic
