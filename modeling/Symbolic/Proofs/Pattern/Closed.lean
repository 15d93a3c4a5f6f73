import Mathlib.Data.List.Perm.Basic
import Symbolic.Pattern.Rule
import Symbolic.Proofs.Expr.Closed
import Symbolic.Proofs.Expr.Distinct

/-!
What matching and rewriting keep. The values of an assignment are operands of the target, or sums
and products of some of them, so they have any property that the target has and that operations keep
(`Kept.matched`). The results of a rule have it too (`Kept.rule`). A rule only takes the target apart
and puts it together again around what has been replaced, so it is enough if a property goes through
that (`Rebuilt`) and is kept where the rule replaces the whole (`Rebuilt.results`).

What is found at a node of the pattern comes of what is found at its operands: `matcher_recursion`
says so once, one case for each kind of node, for all that is proved of what matching finds.
-/

namespace Symbolic

namespace Assignment

/-- Every value has the property. -/
def Holds (P : Expr → Prop) (a : Assignment) : Prop := ∀ b ∈ a.bindings, P b.2

variable {P : Expr → Prop} {a b : Assignment}

theorem Holds.get? (h : a.Holds P) {s : Symbol} {e : Expr} (hs : a.get? s = some e) : P e := by
  obtain ⟨p, hp, rfl⟩ := Option.map_eq_some_iff.1 hs
  exact h p (List.mem_of_find?_eq_some hp)

theorem mem_insertSorted {s : Symbol} {e : Expr} {bs : List (Symbol × Expr)} :
    ∀ p ∈ insertSorted s e bs, p = (s, e) ∨ p ∈ bs := by
  induction bs with
  | nil => intro p hp; exact .inl (List.mem_singleton.1 hp)
  | cons b bs ih =>
    intro p hp
    rw [insertSorted] at hp
    split at hp
    · exact List.mem_cons.1 hp
    · rcases List.mem_cons.1 hp with rfl | hp
      · exact .inr List.mem_cons_self
      · exact (ih p hp).imp_right (List.mem_cons_of_mem _)

theorem Holds.bind? (h : a.Holds P) {s : Symbol} {e : Expr} (he : P e)
    (hb : a.bind? s e = some b) : b.Holds P := by
  rw [Assignment.bind?] at hb
  split at hb
  · split at hb
    · exact Option.some.inj hb ▸ h
    · cases hb
  · cases hb
    intro p hp
    rcases mem_insertSorted p hp with rfl | hp
    · exact he
    · exact h p hp

theorem Holds.bindAll? (h : a.Holds P) {bs : List (Symbol × Expr)} (hbs : ∀ p ∈ bs, P p.2)
    (hb : a.bindAll? bs = some b) : b.Holds P := by
  induction bs generalizing a with
  | nil => exact Option.some.inj hb ▸ h
  | cons p bs ih =>
    obtain ⟨hp, hbs⟩ := List.forall_mem_cons.1 hbs
    obtain ⟨c, hc, hb⟩ := Option.bind_eq_some_iff.1 hb
    exact ih (h.bind? hp hc) hbs hb

end Assignment

namespace AssignmentSet

/-- Every value of every assignment has the property. -/
def Holds (P : Expr → Prop) (s : AssignmentSet) : Prop := ∀ a ∈ s.results, a.Holds P

variable {P : Expr → Prop} {s t : AssignmentSet}

theorem holds_none : none.Holds P := List.forall_mem_nil _

theorem holds_all : all.Holds P := by
  intro a ha
  rw [List.mem_singleton.1 ha]
  exact List.forall_mem_nil _

theorem holds_single {x : Symbol} {e : Expr} (he : P e) : (single (.single x e)).Holds P := by
  intro a ha b hb
  rw [List.mem_singleton.1 ha] at hb
  rw [List.mem_singleton.1 hb]
  exact he

theorem holds_ofList {as : List Assignment} (h : ∀ a ∈ as, a.Holds P) : (ofList as).Holds P :=
  fun a ha => h a (mem_of_mem_distinctFrom a ha)

theorem Holds.inter (hs : s.Holds P) (ht : t.Holds P) : (s.inter t).Holds P := by
  rw [AssignmentSet.inter]
  split
  · exact holds_none
  split
  · exact ht
  split
  · exact hs
  · refine holds_ofList fun c hc => ?_
    obtain ⟨a, ha, hc⟩ := List.mem_flatMap.1 hc
    obtain ⟨b, hb, hc⟩ := List.mem_filterMap.1 hc
    exact (hs a ha).bindAll? (ht b hb) hc

end AssignmentSet

namespace Kept

open Symbolic.Expr Symbolic.Matcher

variable {P : Expr → Prop}

/-- What a matcher finds in a target with the property has it too. -/
def MatcherKeeps (P : Expr → Prop) (m : Matcher) : Prop := ∀ e, P e → (m e).Holds P

theorem inOrder {ms : List Matcher} (hm : ∀ m ∈ ms, MatcherKeeps P m) {es : List Expr}
    (hes : ∀ e ∈ es, P e) {acc : AssignmentSet} (ha : acc.Holds P) :
    (Matcher.inOrder ms es acc).Holds P := by
  induction ms generalizing es acc with
  | nil => exact ha
  | cons m ms ih =>
    cases es with
    | nil => exact ha
    | cons e es =>
      obtain ⟨hm, hms⟩ := List.forall_mem_cons.1 hm
      obtain ⟨he, hes⟩ := List.forall_mem_cons.1 hes
      rw [Matcher.inOrder]
      split
      · exact ha
      · exact ih hms hes (ha.inter (hm e he))

theorem mem_groupMembers {es : List Expr} {code : Nat} : ∀ e ∈ groupMembers es code, e ∈ es := by
  induction es generalizing code with
  | nil => intro e he; cases he
  | cons d es ih =>
    intro e he
    rw [groupMembers] at he
    split at he
    · rcases List.mem_cons.1 he with rfl | he
      · exact List.mem_cons_self
      · exact List.mem_cons_of_mem _ (ih e he)
    · exact List.mem_cons_of_mem _ (ih e he)

theorem groupExpr {rebuild : List Expr → Expr} (hr : ∀ es, (∀ e ∈ es, P e) → P (rebuild es))
    {es : List Expr} (hes : ∀ e ∈ es, P e) : P (Matcher.groupExpr rebuild es) := by
  unfold Matcher.groupExpr
  split
  · exact hes _ List.mem_cons_self
  · exact hr _ hes

/-- Every table entry that is asked for has the property. -/
def TableKeeps (P : Expr → Prop) (t : Array (Thunk AssignmentSet)) : Prop :=
  ∀ (code : Nat) (found : Thunk AssignmentSet), t[code]? = some found → found.get.Holds P

theorem groupTable {rebuild : List Expr → Expr} (hr : ∀ es, (∀ e ∈ es, P e) → P (rebuild es))
    {es : List Expr} (hes : ∀ e ∈ es, P e) {m : Matcher} (hm : MatcherKeeps P m) :
    TableKeeps P (Matcher.groupTable rebuild es m) := by
  intro code found hf
  rw [Matcher.groupTable, Array.getElem?_ofFn] at hf
  split at hf
  · cases hf
    exact hm _ (groupExpr hr fun e he => hes e (mem_groupMembers e he))
  · cases hf

theorem groupsInOrder {ts : List (Array (Thunk AssignmentSet))} (ht : ∀ t ∈ ts, TableKeeps P t)
    (gs : List (List Nat)) {acc : AssignmentSet} (ha : acc.Holds P) :
    (Matcher.groupsInOrder ts gs acc).Holds P := by
  induction ts generalizing gs acc with
  | nil => exact ha
  | cons t ts ih =>
    cases gs with
    | nil => exact ha
    | cons g gs =>
      obtain ⟨ht, hts⟩ := List.forall_mem_cons.1 ht
      rw [Matcher.groupsInOrder]
      split
      · exact ha
      split
      · next found hf => exact ih hts gs (ha.inter (ht _ found hf))
      · exact AssignmentSet.holds_none

theorem commutative {rebuild : List Expr → Expr} (hr : ∀ es, (∀ e ∈ es, P e) → P (rebuild es))
    {ms : List Matcher} (hm : ∀ m ∈ ms, MatcherKeeps P m) {es : List Expr} (hes : ∀ e ∈ es, P e) :
    (Matcher.commutative rebuild ms es).Holds P := by
  rw [Matcher.commutative]
  split
  · exact AssignmentSet.holds_none
  · refine AssignmentSet.holds_ofList fun a ha => ?_
    obtain ⟨groups, _, ha⟩ := List.mem_flatMap.1 ha
    -- what a pattern is matched with is a group of operands, rebuilt
    refine groupsInOrder ?_ groups AssignmentSet.holds_all a ha
    intro t ht
    obtain ⟨m, hmem, rfl⟩ := List.mem_map.1 ht
    exact groupTable hr hes (hm m hmem)

theorem mem_matchers {free : List Symbol} {ps : List Expr} :
    ∀ m ∈ Expr.matchers free ps, ∃ p ∈ ps, m = fun e => Expr.matcher free p e := by
  induction ps with
  | nil => intro m hm; cases hm
  | cons p ps ih =>
    intro m hm
    rcases List.mem_cons.1 hm with rfl | hm
    · exact ⟨p, List.mem_cons_self, rfl⟩
    · obtain ⟨q, hq, rfl⟩ := ih m hm
      exact ⟨q, List.mem_cons_of_mem _ hq, rfl⟩

/-- How a pattern is matched, node by node: what holds of what a node finds, if it holds of what its
operands find, holds of what the pattern finds in any target. -/
theorem matcher_recursion {free : List Symbol} {Q : Expr → Expr → AssignmentSet → Prop}
    (none : ∀ p e, Q p e .none) (const : ∀ c, Q (.const c) (.const c) .all)
    (free_var : ∀ s k e, s ∈ free → Q (.var s k) e (.single (.single s e)))
    (other_var : ∀ s k l, s ∉ free → Q (.var s k) (.var s l) .all)
    (sum : ∀ ps es, (∀ p ∈ ps, ∀ e, Q p e (Expr.matcher free p e)) →
      Q (.sum ps) (.sum es) (Matcher.commutative .sumOf (Expr.matchers free ps) es))
    (product : ∀ ps es, (∀ p ∈ ps, ∀ e, Q p e (Expr.matcher free p e)) →
      Q (.product ps) (.product es) (Matcher.commutative .productOf (Expr.matchers free ps) es))
    (pow : ∀ {b p b' p' s t}, Q b b' s → Q p p' t → Q (.pow b p) (.pow b' p') (s.inter t))
    (apply : ∀ f {p e s}, Q p e s → Q (.apply f p) (.apply f e) s)
    (call : ∀ {f ss b g ts b'} ps es, Definition.same ⟨g, ts, b'⟩ ⟨f, ss, b⟩ = true →
      (∀ p ∈ ps, ∀ e, Q p e (Expr.matcher free p e)) →
        Q (.call f ss b ps) (.call g ts b' es) (Matcher.inOrder (Expr.matchers free ps) es .all))
    (p e : Expr) : Q p e (Expr.matcher free p e) := by
  induction p generalizing e with
  | const c =>
    cases e with
    | const d =>
      rw [Expr.matcher]
      split
      · next h => exact h ▸ const c
      · exact none _ _
    | _ => exact none _ _
  | var s k =>
    unfold Expr.matcher
    split
    · next h => exact free_var s k e (List.contains_iff_mem.1 h)
    next h =>
    split
    · next l =>
      split
      · next hst => exact hst ▸ other_var s k l fun hs => h (List.contains_iff_mem.2 hs)
      · exact none _ _
    · exact none _ _
  | sum ps ih =>
    cases e with
    | sum es => exact sum ps es ih
    | _ => exact none _ _
  | product ps ih =>
    cases e with
    | product es => exact product ps es ih
    | _ => exact none _ _
  | pow b p ihb ihp =>
    cases e with
    | pow b' p' =>
      rw [Expr.matcher]
      split
      · next h =>
        -- nothing is found for the base
        have hnone : Expr.matcher free b b' = .none :=
          congrArg AssignmentSet.mk (List.isEmpty_iff.1 h)
        exact hnone ▸ none _ _
      · exact pow (ihb b') (ihp p')
    | _ => exact none _ _
  | apply f p ih =>
    cases e with
    | apply g d =>
      rw [Expr.matcher]
      split
      · next h => exact h ▸ apply f (ih d)
      · exact none _ _
    | _ => exact none _ _
  | call f ss b ps _ ih =>
    cases e with
    | call g ts b' es =>
      rw [Expr.matcher]
      split
      · next h => exact call ps es h ih
      · exact none _ _
    | _ => exact none _ _

/-- What a pattern finds in a target with the property has it too, whatever the pattern is: it is
made of operands by sums and products. -/
theorem matcherKeeps (hsum : ∀ es, (∀ e ∈ es, P e) → P (.sumOf es))
    (hproduct : ∀ es, (∀ e ∈ es, P e) → P (.productOf es))
    (hoperands : ∀ e, P e → ∀ d ∈ e.operands, P d) (free : List Symbol) (p : Expr) :
    MatcherKeeps P (Expr.matcher free p) := by
  have hlist {ps : List Expr} (ih : ∀ p ∈ ps, MatcherKeeps P (Expr.matcher free p)) :
      ∀ m ∈ Expr.matchers free ps, MatcherKeeps P m := by
    intro m hm
    obtain ⟨p, hp, rfl⟩ := mem_matchers m hm
    exact ih p hp
  refine matcher_recursion (Q := fun _ e s => P e → s.Holds P) ?none ?const ?free_var ?other_var
    ?sum ?product ?pow ?apply ?call p
  case none => exact fun _ _ _ => AssignmentSet.holds_none
  case const => exact fun _ _ => AssignmentSet.holds_all
  case free_var => exact fun _ _ _ _ he => AssignmentSet.holds_single he
  case other_var => exact fun _ _ _ _ _ => AssignmentSet.holds_all
  case sum => exact fun _ _ ih he => commutative hsum (hlist ih) (hoperands _ he)
  case product => exact fun _ _ ih he => commutative hproduct (hlist ih) (hoperands _ he)
  case pow =>
    intro b p b' p' s t hs ht he
    have hb := hs (hoperands _ he b' (by simp [Expr.operands]))
    exact hb.inter (ht (hoperands _ he p' (by simp [Expr.operands])))
  case apply => exact fun f _ d _ hs he => hs (hoperands _ he d List.mem_cons_self)
  case call =>
    exact fun _ _ _ ih he => inOrder (hlist ih) (hoperands _ he) AssignmentSet.holds_all

theorem matcher (h : Kept P) (free : List Symbol) (p : Expr) :
    MatcherKeeps P (Expr.matcher free p) :=
  matcherKeeps (fun _ => h.sum) (fun _ => h.product) (fun _ => h.operands) free p

theorem matched (h : Kept P) (p : Pattern) {e : Expr} (he : P e) : (p.matches? e).Holds P :=
  h.matcher p.free p.expr e he

/-! Rules. -/

variable {r : Rule}

theorem atRoot (h : Kept P) (hr : P r.replacement) {e : Expr} (he : P e) :
    ∀ d ∈ r.atRoot e, P d := by
  intro d hd
  obtain ⟨a, ha, rfl⟩ := List.mem_map.1 hd
  exact h.substitute (fun _ _ => (h.matched r.pattern he a ha).get?) hr

theorem perm_of_mem_splits {es : List Expr} : ∀ s ∈ Blocks.splits es, (s.1 ++ s.2).Perm es := by
  induction es with
  | nil =>
    intro s hs
    rw [List.mem_singleton.1 hs]
    exact .refl _
  | cons x es ih =>
    intro s hs
    obtain ⟨t, ht, hs⟩ := List.mem_flatMap.1 hs
    rcases List.mem_pair.1 hs with rfl | rfl
    · exact List.perm_middle.trans ((ih t ht).cons x)
    · exact (ih t ht).cons x

end Kept

/-! Where a rule is applied. -/

/-- The expression has the operand `x` in some place, and `c` puts another one there. -/
inductive Expr.Frame : (Expr → Expr) → Expr → Expr → Prop
  | sum (us : List Expr) (x : Expr) (vs : List Expr) :
    Frame (fun y => .sumOf (us ++ y :: vs)) x (.sum (us ++ x :: vs))
  | product (us : List Expr) (x : Expr) (vs : List Expr) :
    Frame (fun y => .productOf (us ++ y :: vs)) x (.product (us ++ x :: vs))
  | base (b p : Expr) : Frame (fun y => .powOf y p) b (.pow b p)
  | power (b p : Expr) : Frame (fun y => .powOf b y) p (.pow b p)
  | apply (f : Primitive) (x : Expr) : Frame (.applyOf f) x (.apply f x)
  | call (f : String) (ps : List Symbol) (b : Expr) (us : List Expr) (x : Expr) (vs : List Expr) :
    Frame (fun y => .call f ps b (us ++ y :: vs)) x (.call f ps b (us ++ x :: vs))

theorem Expr.Frame.mem_operands {c : Expr → Expr} {x e : Expr} (h : Frame c x e) :
    x ∈ e.operands := by
  cases h <;> simp [Expr.operands]

theorem forall_mem_replaced {P : Expr → Prop} {us vs : List Expr} {x y : Expr}
    (h : ∀ e ∈ us ++ x :: vs, P e) (hy : P y) : ∀ e ∈ us ++ y :: vs, P e := by
  simp only [List.forall_mem_append, List.forall_mem_cons] at h ⊢
  exact ⟨h.1, hy, h.2.2⟩

namespace Rule

open Symbolic.Expr

variable {r : Rule} {d e : Expr} {es : List Expr}

theorem mem_resultsEach {ds : List Expr} :
    ds ∈ r.resultsEach es ↔
      ∃ us x vs, es = us ++ x :: vs ∧ ∃ y ∈ r.results x, ds = us ++ y :: vs := by
  induction es generalizing ds with
  | nil =>
    refine ⟨fun h => (List.not_mem_nil h).elim, ?_⟩
    rintro ⟨us, e, vs, h, -⟩
    simp at h
  | cons e es ih =>
    rw [resultsEach, List.mem_append, List.mem_map, List.mem_map]
    constructor
    · rintro (⟨d, hd, rfl⟩ | ⟨ds, hds, rfl⟩)
      · exact ⟨[], e, es, rfl, d, hd, rfl⟩
      · obtain ⟨us, x, vs, rfl, d, hd, rfl⟩ := ih.1 hds
        exact ⟨e :: us, x, vs, rfl, d, hd, rfl⟩
    · rintro ⟨us, x, vs, h, d, hd, rfl⟩
      cases us with
      | nil =>
        cases h
        exact .inl ⟨d, hd, rfl⟩
      | cons u us =>
        cases h
        exact .inr ⟨us ++ d :: vs, ih.2 ⟨us, x, vs, rfl, d, hd, rfl⟩, rfl⟩

theorem mem_map_resultsEach {f : List Expr → Expr} :
    d ∈ (r.resultsEach es).map f ↔
      ∃ us x vs, es = us ++ x :: vs ∧ ∃ y ∈ r.results x, f (us ++ y :: vs) = d := by
  constructor
  · intro hd
    obtain ⟨ds, hds, rfl⟩ := List.mem_map.1 hd
    obtain ⟨us, x, vs, rfl, y, hy, rfl⟩ := mem_resultsEach.1 hds
    exact ⟨us, x, vs, rfl, y, hy, rfl⟩
  · rintro ⟨us, x, vs, rfl, y, hy, rfl⟩
    exact List.mem_map_of_mem (mem_resultsEach.2 ⟨us, x, vs, rfl, y, hy, rfl⟩)

/-- A rule is applied at the root, to some of the operands, or inside one of them. -/
theorem mem_results :
    d ∈ r.results e ↔
      d ∈ r.atRoot e ∨ d ∈ r.atOperands e ∨ ∃ c x, Frame c x e ∧ ∃ y ∈ r.results x, c y = d := by
  constructor
  · intro hd
    cases e with
    | const _ | var _ _ => exact .inl hd
    | sum es =>
      rw [results, List.mem_append, List.mem_append] at hd
      obtain (hd | hd) | hd := hd
      · exact .inl hd
      · exact .inr (.inl hd)
      · obtain ⟨us, x, vs, rfl, y, hy, rfl⟩ := mem_map_resultsEach.1 hd
        exact .inr (.inr ⟨_, x, .sum us x vs, y, hy, rfl⟩)
    | product es =>
      rw [results, List.mem_append, List.mem_append] at hd
      obtain (hd | hd) | hd := hd
      · exact .inl hd
      · exact .inr (.inl hd)
      · obtain ⟨us, x, vs, rfl, y, hy, rfl⟩ := mem_map_resultsEach.1 hd
        exact .inr (.inr ⟨_, x, .product us x vs, y, hy, rfl⟩)
    | pow b p =>
      rw [results, List.mem_append, List.mem_append] at hd
      obtain (hd | hd) | hd := hd
      · exact .inl hd
      · obtain ⟨y, hy, rfl⟩ := List.mem_map.1 hd
        exact .inr (.inr ⟨_, b, .base b p, y, hy, rfl⟩)
      · obtain ⟨y, hy, rfl⟩ := List.mem_map.1 hd
        exact .inr (.inr ⟨_, p, .power b p, y, hy, rfl⟩)
    | apply f x =>
      rw [results, List.mem_append] at hd
      obtain hd | hd := hd
      · exact .inl hd
      · obtain ⟨y, hy, rfl⟩ := List.mem_map.1 hd
        exact .inr (.inr ⟨_, x, .apply f x, y, hy, rfl⟩)
    | call f ps b es =>
      rw [results, List.mem_append] at hd
      obtain hd | hd := hd
      · exact .inl hd
      · obtain ⟨us, x, vs, rfl, y, hy, rfl⟩ := mem_map_resultsEach.1 hd
        exact .inr (.inr ⟨_, x, .call f ps b us x vs, y, hy, rfl⟩)
  · rintro (hd | hd | ⟨c, x, hf, y, hy, rfl⟩)
    · cases e <;> simp [results, hd]
    · cases e <;> first | cases hd | simp [results, hd]
    · have hlist {f : List Expr → Expr} {us vs : List Expr} :
          f (us ++ y :: vs) ∈ (r.resultsEach (us ++ x :: vs)).map f :=
        mem_map_resultsEach.2 ⟨us, x, vs, rfl, y, hy, rfl⟩
      cases hf with
      | sum | product | call => exact List.mem_append_right _ hlist
      | base b p => exact List.mem_append_left _ (List.mem_append_right _ (List.mem_map_of_mem hy))
      | power | apply => exact List.mem_append_right _ (List.mem_map_of_mem hy)

end Rule

/-- The property goes up through constructors and to calls with other arguments, and down to
operands. -/
structure Rebuilt (P : Expr → Prop) : Prop where
  sum : ∀ {es}, (∀ e ∈ es, P e) → P (.sumOf es)
  product : ∀ {es}, (∀ e ∈ es, P e) → P (.productOf es)
  pow : ∀ {b p}, P b → P p → P (.powOf b p)
  apply : ∀ f {e}, P e → P (.applyOf f e)
  callAgain : ∀ {f ps b as es}, P (.call f ps b as) → es.length = as.length → (∀ e ∈ es, P e) →
    P (.call f ps b es)
  operands : ∀ {e}, P e → ∀ d ∈ e.operands, P d

theorem Kept.rebuilt {P : Expr → Prop} (h : Kept P) : Rebuilt P where
  sum := h.sum
  product := h.product
  pow := h.pow
  apply := h.apply
  callAgain hc hl := h.callAgain hc (hl.trans (h.body hc).1)
  operands := h.operands

namespace Rebuilt

variable {P : Expr → Prop} {r : Rule}

theorem amongOperands (hroot : ∀ e, P e → ∀ d ∈ r.atRoot e, P d) {rebuild : List Expr → Expr}
    (hb : ∀ es, (∀ e ∈ es, P e) → P (rebuild es)) {es : List Expr} (hes : ∀ e ∈ es, P e) :
    ∀ d ∈ r.amongOperands rebuild es, P d := by
  intro d hd
  rw [Rule.amongOperands] at hd
  split at hd
  · cases hd
  obtain ⟨⟨inside, outside⟩, hs, hd⟩ := List.mem_flatMap.1 hd
  have hin : ∀ e ∈ inside, e ∈ es := fun e he =>
    (Kept.perm_of_mem_splits _ hs).mem_iff.1 (List.mem_append_left _ he)
  have hout : ∀ e ∈ outside, e ∈ es := fun e he =>
    (Kept.perm_of_mem_splits _ hs).mem_iff.1 (List.mem_append_right _ he)
  simp only at hd
  split at hd
  · cases hd
  obtain ⟨e, he, rfl⟩ := List.mem_map.1 hd
  -- a part of the operands is rewritten as a whole, the others stay
  have hreplaced := hroot _ (hb inside fun x hx => hes x (hin x hx)) e he
  refine hb _ fun x hx => ?_
  rcases List.mem_append.1 hx with hx | hx
  · exact hes x (hout x hx)
  · rw [List.mem_singleton.1 hx]
    exact hreplaced

theorem atOperands (h : Rebuilt P) (hroot : ∀ e, P e → ∀ d ∈ r.atRoot e, P d) {e : Expr}
    (he : P e) : ∀ d ∈ r.atOperands e, P d := by
  intro d hd
  cases e with
  | sum es =>
    rw [Rule.atOperands] at hd
    split at hd
    · exact amongOperands hroot (fun _ => h.sum) (h.operands he) d hd
    · cases hd
  | product es =>
    rw [Rule.atOperands] at hd
    split at hd
    · exact amongOperands hroot (fun _ => h.product) (h.operands he) d hd
    · cases hd
  | _ => cases hd

theorem frame (h : Rebuilt P) {c : Expr → Expr} {x e y : Expr} (hf : Expr.Frame c x e) (he : P e)
    (hy : P y) : P (c y) := by
  have hes := h.operands he
  cases hf with
  | sum us x vs => exact h.sum (forall_mem_replaced hes hy)
  | product us x vs => exact h.product (forall_mem_replaced hes hy)
  | base b p => exact h.pow hy (hes p (by simp [Expr.operands]))
  | power b p => exact h.pow (hes b (by simp [Expr.operands])) hy
  | apply f x => exact h.apply f hy
  | call f ps b us x vs => exact h.callAgain he (by simp) (forall_mem_replaced hes hy)

theorem results (h : Rebuilt P) (hroot : ∀ e, P e → ∀ d ∈ r.atRoot e, P d) {e : Expr} :
    P e → ∀ d ∈ r.results e, P d := by
  induction e using Expr.operand_induction with
  | h e ih =>
    intro he d hd
    obtain hd | hd | ⟨c, x, hf, y, hy, rfl⟩ := Rule.mem_results.1 hd
    · exact hroot _ he d hd
    · exact h.atOperands hroot he d hd
    · have hx := hf.mem_operands
      exact h.frame hf he (ih x hx (h.operands he x hx) y hy)

end Rebuilt

/-- Where the rule replaces the whole, it puts what it has matched into the replacement. -/
theorem Kept.results {P : Expr → Prop} (h : Kept P) {r : Rule} (hr : P r.replacement) {e : Expr} :
    P e → ∀ d ∈ r.results e, P d :=
  h.rebuilt.results fun _ he => h.atRoot hr he

theorem Kept.rule {P : Expr → Prop} (h : Kept P) {r : Rule} (hr : P r.replacement) {e : Expr}
    (he : P e) : ∀ d ∈ r.apply e, P d :=
  fun d hd => h.results hr he d (mem_of_mem_distinctFrom d hd)

end Symbolic
