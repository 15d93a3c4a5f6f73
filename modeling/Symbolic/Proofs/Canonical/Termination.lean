import Symbolic.Proofs.Canonical.Congruence
import Symbolic.Proofs.Canonical.Constructible

/-!
The recursion of the constructors, without a number of steps given beforehand. A constructor does its
work in a script (`Construction.script`), which calls constructors one after the other and goes on with
what they give; a script comes to an end after so many calls if each call in it does (`Ends`).

A script, with calls answered by any functions, is the body of the constructor (`run_script`). So a
script comes to an end exactly if it does within some number of steps (`ends_iff`), and over canonical
operands it does (`within_eq_result`).
-/

namespace Symbolic

open Symbolic.Expr

inductive Construction where
  | sum (ts : List Expr)
  | product (fs : List Expr)
  | power (base power : Expr)

/-- A computation that calls constructors, and goes on with what they give. -/
inductive Script (α : Type) where
  | done (a : α)
  | call (c : Construction) (rest : Expr → Script α)

namespace Script

variable {α β : Type} {ask ask' : Construction → Option Expr}

def bind : Script α → (α → Script β) → Script β
  | done a, f => f a
  | call c rest, f => call c fun e => (rest e).bind f

def each (f : α → Script β) : List α → Script (List β)
  | [] => done []
  | x :: xs => (f x).bind fun y => (each f xs).bind fun ys => done (y :: ys)

/-- What a computation gives if calls are answered by a function. -/
def run (ask : Construction → Option Expr) : Script α → Option α
  | done a => some a
  | call c rest => ask c >>= fun e => (rest e).run ask

@[simp] theorem run_done (a : α) : (done a).run ask = some a := by rw [run]

@[simp] theorem run_bind (x : Script α) (f : α → Script β) :
    (x.bind f).run ask = x.run ask >>= fun a => (f a).run ask := by
  induction x with
  | done a => rfl
  | call c rest ih =>
    rw [bind, run, run]
    cases ask c with
    | none => rfl
    | some e => exact ih e

@[simp] theorem run_each (f : α → Script β) (xs : List α) :
    (each f xs).run ask = xs.mapM fun x => (f x).run ask := by
  induction xs with
  | nil => rfl
  | cons x xs ih => simp only [each, run_bind, ih, run_done, List.mapM_cons, Option.pure_def]

@[simp] theorem run_call_map (c : Construction) (f : Expr → α) :
    (call c fun e => done (f e)).run ask = (ask c).map f :=
  (Option.map_eq_bind (f := f) (x := ask c)).symm

@[simp] theorem run_call (c : Construction) : (call c done).run ask = ask c := by
  rw [run]
  exact Option.bind_fun_some _

@[simp] theorem run_ite (p : Prop) [Decidable p] (x y : Script α) :
    (if p then x else y).run ask = if p then x.run ask else y.run ask :=
  apply_ite _ p x y

/-- With more answers, a computation gives what it gave. -/
theorem run_extends (h : Extends ask ask') : Extends (fun x : Script α => x.run ask) (run ask') := by
  intro x a ha
  induction x with
  | done b => exact ha
  | call c rest ih =>
    obtain ⟨e, he, ha⟩ := Option.bind_eq_some_iff.1 ha
    exact Option.bind_eq_some_iff.2 ⟨e, h c e he, ih e ha⟩

end Script

open Script

namespace Expr

/-! The work of the constructors. -/

def likeTermScript (g : Group Rat) : Script (Option Expr) :=
  let c := g.parts.foldr (· + ·) 0
  if c = 0 then .done none
  else if c = 1 then .done (some g.base)
  else .call (.product [const c, g.base]) fun e => .done (some e)

def sumScript (ts : List Expr) : Script Expr :=
  let flat := ts.flatMap terms
  (each likeTermScript (gather asMultiple (nonConstants flat))).bind fun merged =>
    let kept := merged.filterMap id
    let all := withConst 0 ((constants flat).foldr (· + ·) 0) kept
    if kept.any fun e => e.isSum || e.isConst then .call (.sum all) .done
    else .done (finish 0 sum all)

/-- Like powers merged, given the sum of the exponents. -/
def raisedScript (base p : Expr) : Script (Option Expr) :=
  match p with
  | const c =>
    if c = 0 then .done none
    else if c = 1 then .done (some base)
    else .call (.power base (const c)) fun e => .done (some e)
  | p => .call (.power base p) fun e => .done (some e)

def likePowerScript (g : Group Expr) : Script (Option Expr) :=
  match g.parts with
  | [_] => .done (some g.first)
  | ps => .call (.sum ps) (raisedScript g.base)

def productScript (fs : List Expr) : Script Expr :=
  let flat := fs.flatMap factors
  let c := (constants flat).foldr (· * ·) 1
  if c = 0 then .done (const 0)
  else
    (each likePowerScript (gather asPower (nonConstants flat))).bind fun merged =>
      let kept := merged.filterMap id
      let all := withConst 1 c kept
      if kept.any fun e => e.isProduct || e.isConst then .call (.product all) .done
      else .done (finish 1 product all)

def powerScript (base power : Expr) : Script Expr :=
  match power with
  | const p =>
    if p = 0 then .done (const 1)
    else if p = 1 then .done base.copied
    else match foldedPower? base p with
      | some c => .done (const c)
      | none =>
        if p.den = 1 then
          match base with
          | pow b q => .call (.product [q, power]) fun r => .call (.power b r) .done
          | .product fs =>
            (each (fun f => .call (.power f power) .done) fs).bind fun es => .call (.product es) .done
          | _ => .done (barePow base power)
        else .done (barePow base power)
  | _ => .done (barePow base power)

/-! With calls answered, the bodies of the constructors. -/

variable {ask : Construction → Option Expr}

theorem run_likeTermScript (g : Group Rat) :
    (likeTermScript g).run ask = likeTerm (fun fs => ask (.product fs)) g := by
  simp [likeTermScript, likeTerm]

theorem run_sumScript (ts : List Expr) :
    (sumScript ts).run ask =
      sumBody (fun fs => ask (.product fs)) (fun ts => ask (.sum ts)) ts := by
  simp [sumScript, sumBody, run_likeTermScript]

theorem run_likePowerScript (g : Group Expr) :
    (likePowerScript g).run ask =
      likePower (fun ts => ask (.sum ts)) (fun b p => ask (.power b p)) g := by
  rw [likePowerScript, likePower]
  rcases g.parts with _ | ⟨p, _ | ⟨q, ps⟩⟩
  case cons.nil => rfl
  all_goals
    refine congrArg _ (funext fun p => ?_)
    cases p <;> simp [raisedScript]

theorem run_productScript (fs : List Expr) :
    (productScript fs).run ask = productBody (fun ts => ask (.sum ts))
      (fun fs => ask (.product fs)) (fun b p => ask (.power b p)) fs := by
  simp [productScript, productBody, run_likePowerScript]

theorem run_powerScript (b p : Expr) :
    (powerScript b p).run ask =
      powBody (fun fs => ask (.product fs)) (fun b p => ask (.power b p)) b p := by
  cases p with
  | const c =>
    simp only [powerScript, powBody, run_ite, run_done]
    cases foldedPower? b c with
    | some d => rfl
    | none =>
      cases b with
      | pow b q => simp [run]
      | product fs => simp
      | _ => simp
  | _ => rfl

end Expr

namespace Construction

def operands : Construction → List Expr
  | sum ts => ts
  | product fs => fs
  | power b p => [b, p]

def result : Construction → Expr
  | sum ts => sumOf ts
  | product fs => productOf fs
  | power b p => powOf b p

def within (n : Nat) : Construction → Option Expr
  | sum ts => sumWithin n ts
  | product fs => productWithin n fs
  | power b p => powWithin n b p

/-- How deep calls can go inside one another. -/
def rank : Construction → Nat
  | sum ts => 2 * masses ts + 2
  | product fs => 2 * masses fs + 1
  | power b _ => spreadSteps b

/-- The body of the constructor, over what the constructors called in it give. -/
def body (ask : Construction → Option Expr) : Construction → Option Expr
  | sum ts => sumBody (fun fs => ask (product fs)) (fun ts => ask (sum ts)) ts
  | product fs =>
    productBody (fun ts => ask (sum ts)) (fun fs => ask (product fs)) (fun b p => ask (power b p)) fs
  | power b p => powBody (fun fs => ask (product fs)) (fun b p => ask (power b p)) b p

/-- The work of the constructor, call by call. -/
def script : Construction → Script Expr
  | sum ts => sumScript ts
  | product fs => productScript fs
  | power b p => powerScript b p

theorem within_zero (c : Construction) : c.within 0 = none := by
  cases c <;> rfl

theorem within_succ (n : Nat) (c : Construction) : c.within (n + 1) = c.body (within n) := by
  cases c <;> rfl

theorem within_extends {m n : Nat} (h : m ≤ n) : Extends (within m) (within n) := by
  intro c e he
  cases c with
  | sum ts => exact sumWithin_extends h _ _ he
  | product fs => exact productWithin_extends h _ _ he
  | power b p => exact powWithin_extends h _ _ _ he

/-- A script, with its calls answered, is the body over the answers. -/
theorem run_script (ask : Construction → Option Expr) (c : Construction) :
    c.script.run ask = c.body ask := by
  cases c with
  | sum ts => exact run_sumScript ts
  | product fs => exact run_productScript fs
  | power b p => exact run_powerScript b p

end Construction

open Construction

/-! Scripts that come to an end. -/

/-- The script comes to an end with `e` after `n` calls, those within the calls counted: the constructor
that is called comes to an end, and then what is left of the script. -/
inductive Ends : Script Expr → Expr → Nat → Prop where
  | done (e : Expr) : Ends (.done e) e 0
  | call {c : Construction} {rest : Expr → Script Expr} {d e : Expr} {m n : Nat} :
      Ends c.script d m → Ends (rest d) e n → Ends (.call c rest) e (m + n + 1)

namespace Ends

variable {x : Script Expr} {e : Expr} {n : Nat}

/-- A script has one result, after one number of calls. -/
theorem unique {e' : Expr} {n' : Nat} (h : Ends x e n) (h' : Ends x e' n') : e' = e ∧ n' = n := by
  induction h generalizing e' n' with
  | done e =>
    cases h'
    exact ⟨rfl, rfl⟩
  | call _ _ ihc ihr =>
    cases h' with
    | call hc hr =>
      obtain ⟨rfl, rfl⟩ := ihc hc
      obtain ⟨rfl, rfl⟩ := ihr hr
      exact ⟨rfl, rfl⟩

/-- What comes to an end within a number of steps comes to an end. -/
theorem of_run {k : Nat} (h : x.run (within k) = some e) : ∃ n, Ends x e n := by
  induction k generalizing x e with
  | zero =>
    cases x with
    | done a =>
      cases h
      exact ⟨0, .done _⟩
    | call c rest =>
      obtain ⟨d, hd, -⟩ := Option.bind_eq_some_iff.1 h
      rw [within_zero] at hd
      cases hd
  | succ k ihk =>
    induction x with
    | done a =>
      cases h
      exact ⟨0, .done _⟩
    | call c rest ih =>
      obtain ⟨d, hd, h⟩ := Option.bind_eq_some_iff.1 h
      rw [within_succ, ← run_script] at hd
      obtain ⟨m, hm⟩ := ihk hd
      obtain ⟨n, hn⟩ := ih d h
      exact ⟨m + n + 1, .call hm hn⟩

theorem exists_run (h : Ends x e n) : ∃ k, x.run (within k) = some e := by
  induction h with
  | done e => exact ⟨0, rfl⟩
  | @call c rest d e m n _ _ ihc ihr =>
    obtain ⟨i, hi⟩ := ihc
    obtain ⟨j, hj⟩ := ihr
    rw [run_script, ← within_succ] at hi
    refine ⟨max (i + 1) j, Option.bind_eq_some_iff.2 ⟨d, ?_, ?_⟩⟩
    · exact within_extends (Nat.le_max_left _ _) _ _ hi
    · exact run_extends (within_extends (Nat.le_max_right _ _)) _ _ hj

end Ends

/-- A constructor comes to an end exactly if it does within some number of steps. -/
theorem ends_iff {c : Construction} {e : Expr} :
    (∃ n, Ends c.script e n) ↔ ∃ k, c.within k = some e := by
  constructor
  · rintro ⟨n, h⟩
    obtain ⟨k, hk⟩ := h.exists_run
    rw [run_script, ← within_succ] at hk
    exact ⟨k + 1, hk⟩
  · rintro ⟨k, hk⟩
    have hk := within_extends (Nat.le_succ k) _ _ hk
    rw [within_succ, ← run_script] at hk
    exact Ends.of_run hk

namespace Construction

variable {c : Construction}

/-- Over canonical operands, calls as deep as the rank are enough. -/
theorem within_eq_result (h : ∀ e ∈ c.operands, Canonical e) {k : Nat} (hk : c.rank ≤ k) :
    c.within k = some c.result := by
  obtain ⟨hs, hp, hw⟩ := constructorsWithin_suffice k
  cases c with
  | sum ts =>
    obtain ⟨e, he, -⟩ := hs ts h hk
    exact he.trans (congrArg some (sumOf_of_within h he).symm)
  | product fs =>
    obtain ⟨e, he, -⟩ := hp fs h hk
    exact he.trans (congrArg some (productOf_of_within h he).symm)
  | power b p =>
    have hb : Canonical b := h b List.mem_cons_self
    have hp : Canonical p := h p (List.mem_cons_of_mem _ List.mem_cons_self)
    obtain ⟨e, he, -⟩ := hw b p hb hp hk
    exact he.trans (congrArg some (powOf_of_within hb hp he).symm)

/-- A constructor that is given what constructors can build comes to an end after finitely many calls,
and always with the same result; the calls do not go deeper inside one another than the rank, a bound
by the masses of the operands. -/
theorem constructors_end (c : Construction) (h : ∀ e ∈ c.operands, Constructible e) :
    (∃ n, Ends c.script c.result n ∧ ∀ e m, Ends c.script e m → e = c.result ∧ m = n) ∧
      ∀ k, c.rank ≤ k → c.within k = some c.result := by
  have hwithin : ∀ k, c.rank ≤ k → c.within k = some c.result := fun k =>
    within_eq_result fun e he => (h e he).holds closed_canonical
  obtain ⟨n, hn⟩ := ends_iff.2 ⟨c.rank, hwithin _ (Nat.le_refl _)⟩
  exact ⟨⟨n, hn, fun e m hm => hn.unique hm⟩, hwithin⟩

/-- The root of `x * y`. -/
def rootOfProduct : Expr := powOf (productOf [ofName "x", ofName "y"]) (const (1 / 2))

/-- The product of two roots of `x * y`: the merged power is a product, which is opened in turn. -/
theorem constructors_end_reopened :
    ∃ n, Ends (productScript [rootOfProduct, rootOfProduct]) (.product [ofName "x", ofName "y"]) n := by
  have hxy : Constructible (productOf [ofName "x", ofName "y"]) :=
    .product (Closed.forall_pair (.var _ _) (.var _ _))
  have hroot : Constructible rootOfProduct := .pow hxy (.const _)
  have hresult : productOf [rootOfProduct, rootOfProduct] = .product [ofName "x", ofName "y"] := by
    decide +kernel
  obtain ⟨⟨n, hn, -⟩, -⟩ :=
    constructors_end (.product [rootOfProduct, rootOfProduct]) (Closed.forall_pair hroot hroot)
  exact ⟨n, hresult ▸ hn⟩

end Construction

end Symbolic
