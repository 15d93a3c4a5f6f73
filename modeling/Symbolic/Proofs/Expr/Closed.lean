import Symbolic.Expr.Atomic
import Symbolic.Expr.Builtin
import Symbolic.Grammar.Vocabulary
import Symbolic.Proofs.Expr.Induction

/-!
What every operation keeps. A property that the leaves have, that the constructors keep and calls of
functions that are called already, and that goes down to operands and bodies (`Kept`), is kept by all
that is built on these: new operands for a node, replacement of variables, expansion, and the
functions that are defined from the start. If new functions can be called, too, it is `Closed`.
-/

namespace Symbolic

/-- The property goes up through constructors and to calls with other arguments, and down to
operands and bodies. -/
structure Kept (P : Expr → Prop) : Prop where
  const : ∀ c, P (.const c)
  var : ∀ s k, P (.var s k)
  sum : ∀ {es}, (∀ e ∈ es, P e) → P (.sumOf es)
  product : ∀ {es}, (∀ e ∈ es, P e) → P (.productOf es)
  pow : ∀ {b p}, P b → P p → P (.powOf b p)
  apply : ∀ f {e}, P e → P (.applyOf f e)
  callAgain : ∀ {f ps b as es}, P (.call f ps b as) → es.length = ps.length → (∀ e ∈ es, P e) →
    P (.call f ps b es)
  operands : ∀ {e}, P e → ∀ d ∈ e.operands, P d
  body : ∀ {f ps b es}, P (.call f ps b es) → es.length = ps.length ∧ P b

/-- The property goes up to calls of any functions whose bodies have it. -/
structure Closed (P : Expr → Prop) : Prop extends Kept P where
  call : ∀ {f ps b es}, es.length = ps.length → P b → (∀ e ∈ es, P e) → P (.call f ps b es)

theorem Expr.definition?_eq_some {e : Expr} {f : Definition} (h : e.definition? = some f) :
    ∃ g ps b es, e = .call g ps b es ∧ f = ⟨g, ps, b⟩ := by
  cases e <;> cases h
  exact ⟨_, _, _, _, rfl, rfl⟩

namespace Closed

open Symbolic.Expr

variable {P : Expr → Prop}

theorem forall_pair {a b : Expr} (ha : P a) (hb : P b) : ∀ e ∈ [a, b], P e := by
  intro e he
  rcases List.mem_pair.1 he with rfl | rfl
  · exact ha
  · exact hb

theorem definition_apply (h : Closed P) {f : Definition} {es : List Expr} {e : Expr} (hb : P f.body)
    (hes : ∀ d ∈ es, P d) (he : f.apply es = .ok e) : P e := by
  rw [Definition.apply] at he
  split at he
  · next hl =>
    cases he
    exact h.call hl hb hes
  · cases he

end Closed

namespace Kept

open Symbolic.Expr Symbolic.Closed

variable {P : Expr → Prop}

theorem negate (h : Kept P) {a : Expr} (ha : P a) : P a.negate :=
  h.product (forall_pair (h.const _) ha)

theorem subtract (h : Kept P) {a b : Expr} (ha : P a) (hb : P b) : P (a.subtract b) :=
  h.sum (forall_pair ha (h.negate hb))

theorem divide (h : Kept P) {a b : Expr} (ha : P a) (hb : P b) : P (a.divide b) :=
  h.product (forall_pair ha (h.pow hb (h.const _)))

theorem withOperands (h : Kept P) {e : Expr} {ds : List Expr} (he : P e) (hds : ∀ d ∈ ds, P d) :
    P (e.withOperands ds) := by
  unfold Expr.withOperands
  split
  · exact h.sum hds
  · exact h.product hds
  · exact h.pow (hds _ List.mem_cons_self)
      (hds _ (List.mem_cons_of_mem _ List.mem_cons_self))
  · exact h.apply _ (hds _ List.mem_cons_self)
  · split
    · next hl => exact h.callAgain he hl hds
    · exact he
  · exact he

/-! Replacement. -/

section Replacement

variable {σ : Symbol → Option Expr}

theorem replaceAny?_spec {es : List Expr} (ih : ∀ e ∈ es, P e → ∀ r, replace? σ e = some r → P r)
    (hes : ∀ e ∈ es, P e) {rs : List Expr} (hr : replaceAny? σ es = some rs) :
    rs.length = es.length ∧ ∀ r ∈ rs, P r := by
  induction es generalizing rs with
  | nil => cases hr
  | cons e es iht =>
    obtain ⟨ihe, ihes⟩ := List.forall_mem_cons.1 ih
    obtain ⟨he, hes⟩ := List.forall_mem_cons.1 hes
    -- what is not replaced stays as it was
    have hhead : P ((replace? σ e).getD e) := by
      cases hre : replace? σ e with
      | none => exact he
      | some r => exact ihe he r hre
    have htail : ((replaceAny? σ es).getD es).length = es.length ∧
        ∀ r ∈ (replaceAny? σ es).getD es, P r := by
      cases hres : replaceAny? σ es with
      | none => exact ⟨rfl, hes⟩
      | some rs => exact iht ihes hes hres
    rw [replaceAny?] at hr
    split at hr
    · cases hr
    · cases hr
      exact ⟨congrArg (· + 1) htail.1, List.forall_mem_cons.2 ⟨hhead, htail.2⟩⟩

theorem replace? (h : Kept P) (hσ : ∀ s r, σ s = some r → P r) {e : Expr} :
    P e → ∀ r, Expr.replace? σ e = some r → P r := by
  induction e with
  | const c => intro _ r hr; cases hr
  | var s k =>
    intro _ r hr
    rw [Expr.replace?, Option.filter_eq_some_iff] at hr
    exact hσ s r hr.1
  | sum es ih =>
    intro he r hr
    rw [Expr.replace?] at hr
    obtain ⟨rs, hrs, rfl⟩ := Option.map_eq_some_iff.1 hr
    exact h.sum (replaceAny?_spec ih (h.operands he) hrs).2
  | product es ih =>
    intro he r hr
    rw [Expr.replace?] at hr
    obtain ⟨rs, hrs, rfl⟩ := Option.map_eq_some_iff.1 hr
    exact h.product (replaceAny?_spec ih (h.operands he) hrs).2
  | pow b p ihb ihp =>
    intro he r hr
    obtain ⟨hb, hp⟩ : P b ∧ P p := by
      have := h.operands he
      exact ⟨this b (by simp [Expr.operands]), this p (by simp [Expr.operands])⟩
    have hb' : P ((Expr.replace? σ b).getD b) := by
      cases hrb : Expr.replace? σ b with
      | none => exact hb
      | some r => exact ihb hb r hrb
    have hp' : P ((Expr.replace? σ p).getD p) := by
      cases hrp : Expr.replace? σ p with
      | none => exact hp
      | some r => exact ihp hp r hrp
    rw [Expr.replace?] at hr
    split at hr
    · cases hr
    · cases hr
      exact h.pow hb' hp'
  | apply f e ih =>
    intro he r hr
    rw [Expr.replace?] at hr
    obtain ⟨d, hd, rfl⟩ := Option.map_eq_some_iff.1 hr
    exact h.apply f (ih (h.operands he e List.mem_cons_self) d hd)
  | call f ps b es _ ih =>
    intro he r hr
    rw [Expr.replace?] at hr
    obtain ⟨rs, hrs, rfl⟩ := Option.map_eq_some_iff.1 hr
    obtain ⟨hl, hrs⟩ := replaceAny?_spec ih (h.operands he) hrs
    exact h.callAgain he (hl.trans (h.body he).1) hrs

theorem substitute (h : Kept P) (hσ : ∀ s r, σ s = some r → P r) {e : Expr} (he : P e) :
    P (e.substitute σ) := by
  rw [Expr.substitute]
  cases hr : Expr.replace? σ e with
  | none => exact he
  | some r => exact h.replace? hσ he r hr

end Replacement

theorem mem_of_lookupLast {α : Type} {s : Symbol} {pairs : List (Symbol × α)} {v : α}
    (h : lookupLast s pairs = some v) : (s, v) ∈ pairs := by
  induction pairs with
  | nil => cases h
  | cons p pairs ih =>
    obtain ⟨t, w⟩ := p
    rw [lookupLast] at h
    split at h
    · next hw =>
      cases h
      exact List.mem_cons_of_mem _ (ih hw)
    · split at h
      · next ht =>
        cases h
        exact ht ▸ List.mem_cons_self
      · cases h

theorem substitutePairs (h : Kept P) {pairs : List (Symbol × Expr)} (hp : ∀ p ∈ pairs, P p.2)
    {e : Expr} (he : P e) : P (e.substitutePairs pairs) := by
  refine h.substitute ?_ he
  intro s r hr
  exact hp _ (mem_of_lookupLast hr)

/-! Expansion. -/

theorem mem_expandListWith {again : Expr → Expr} {es : List Expr} :
    ∀ d ∈ expandListWith again es, ∃ e ∈ es, d = expandWith again e := by
  induction es with
  | nil => intro d hd; cases hd
  | cons e es ih =>
    intro d hd
    rcases List.mem_cons.1 hd with rfl | hd
    · exact ⟨e, List.mem_cons_self, rfl⟩
    · obtain ⟨e', he', rfl⟩ := ih d hd
      exact ⟨e', List.mem_cons_of_mem _ he', rfl⟩

theorem expandWith (h : Kept P) {again : Expr → Expr} (ha : ∀ e, P e → P (again e)) {e : Expr} :
    P e → P (Expr.expandWith again e) := by
  have hlist {es : List Expr} (ih : ∀ e ∈ es, P e → P (Expr.expandWith again e))
      (hes : ∀ e ∈ es, P e) : ∀ d ∈ expandListWith again es, P d := by
    intro d hd
    obtain ⟨e, he, rfl⟩ := mem_expandListWith d hd
    exact ih e he (hes e he)
  induction e with
  | const c => exact id
  | var s k => exact id
  | sum es ih =>
    intro he
    rw [Expr.expandWith]
    split
    · exact he
    · exact h.sum (hlist ih (h.operands he))
  | product es ih =>
    intro he
    rw [Expr.expandWith]
    split
    · exact he
    · exact h.product (hlist ih (h.operands he))
  | pow b p ihb ihp =>
    intro he
    have hd := h.operands he
    rw [Expr.expandWith]
    split
    · exact he
    · exact h.pow (ihb (hd b (by simp [Expr.operands]))) (ihp (hd p (by simp [Expr.operands])))
  | apply f e ih =>
    intro he
    rw [Expr.expandWith]
    split
    · exact he
    · exact h.apply f (ih (h.operands he e List.mem_cons_self))
  | call f ps b es _ ih =>
    intro he
    rw [Expr.expandWith]
    -- the expanded arguments go into the body, which is expanded in turn
    refine copied_of (fun s k _ => h.var s k.next) (ha _ (h.substitutePairs ?_ (h.body he).2))
    intro p hp
    exact hlist ih (h.operands he) p.2 (List.of_mem_zip hp).2

theorem expandWithin (h : Kept P) (n : Nat) {e : Expr} (he : P e) : P (e.expandWithin n) := by
  induction n generalizing e with
  | zero => exact he
  | succ n ih => exact h.expandWith (fun _ => ih) he

theorem atomic (h : Kept P) {e : Expr} (he : P e) : P e.atomic := by
  rw [atomic_eq_expandWithin]
  exact h.expandWithin _ he

/-! The functions that are defined from the start. -/

theorem cosineBody (h : Kept P) {t : Expr} (ht : P t) : P (Symbolic.cosineBody t) := by
  have hhalf : P half := h.pow (h.const 2) (h.const (-1))
  have hsin : P (applyOf .sin (productOf [half, t])) := h.apply .sin (h.product (forall_pair hhalf ht))
  exact h.subtract (h.const 1) (h.product (forall_pair (h.const 2) (h.pow hsin (h.const 2))))

theorem magnitudeBody (h : Kept P) {t : Expr} (ht : P t) : P (Symbolic.magnitudeBody t) :=
  h.product (forall_pair ht (h.apply .sign ht))

theorem builtin (h : Kept P) (b : Builtin) : P b.definition.body := by
  have hx : P (ofName "x") := h.var _ _
  have hy : P (ofName "y") := h.var _ _
  have hhalf : P half := h.pow (h.const 2) (h.const (-1))
  have hspread : P spread := h.magnitudeBody (h.subtract hx hy)
  cases b with
  | cos => exact h.cosineBody hx
  | tan => exact h.divide (h.apply .sin hx) (h.cosineBody hx)
  | sqrt => exact h.pow hx hhalf
  | abs => exact h.magnitudeBody hx
  | min => exact h.product (forall_pair hhalf (h.subtract (h.sum (forall_pair hx hy)) hspread))
  | max =>
    refine h.product (forall_pair hhalf (h.sum ?_))
    exact List.forall_mem_cons.2 ⟨hx, forall_pair hy hspread⟩
  | log => exact h.divide (h.apply .ln hy) (h.apply .ln hx)
  | arccos => exact h.subtract (h.apply .arcsin (h.const 1)) (h.apply .arcsin hx)

end Kept

end Symbolic
