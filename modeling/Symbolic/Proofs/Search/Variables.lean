import Symbolic.Proofs.Canonical.Constructible
import Symbolic.Proofs.Pattern.Exact
import Symbolic.Search.Identity

/-!
The variables that rewriting brings in. A match gives values to the free variables that occur in its
pattern, and the other variables of the pattern occur in the target. So the results of a rule have no
variables but those of the target if every variable of the replacement occurs in the pattern (`Bound`).
More than that is not asked of a rule: a variable that the replacement uses may be free and not occur.
So it is in the identity of a function that ignores a parameter.
-/

namespace Symbolic

open Symbolic.Expr

theorem Rebuilt.and {P Q : Expr → Prop} (h : Rebuilt P) (h' : Rebuilt Q) :
    Rebuilt fun e => P e ∧ Q e where
  sum hes := ⟨h.sum fun e he => (hes e he).1, h'.sum fun e he => (hes e he).2⟩
  product hes := ⟨h.product fun e he => (hes e he).1, h'.product fun e he => (hes e he).2⟩
  pow hb hp := ⟨h.pow hb.1 hp.1, h'.pow hb.2 hp.2⟩
  apply f _ he := ⟨h.apply f he.1, h'.apply f he.2⟩
  callAgain hc hl hes :=
    ⟨h.callAgain hc.1 hl fun e he => (hes e he).1, h'.callAgain hc.2 hl fun e he => (hes e he).2⟩
  operands he d hd := ⟨h.operands he.1 d hd, h'.operands he.2 d hd⟩

theorem rebuilt_within (ss : List Symbol) : Rebuilt (Within ss) where
  sum := (nodewise_within ss).sumOf
  product := (nodewise_within ss).productOf
  pow := (nodewise_within ss).powOf
  apply f _ := (nodewise_within ss).applyOf f
  callAgain _ _ := within_call.2
  operands h := h.operands

/-- What a rule is refused for: variables of the replacement that are not free and do not occur in the
pattern. -/
theorem Pattern.missing_eq (p : Pattern) (t : Expr) :
    (t.vars.filter fun s => !p.free.contains s && !p.literals.contains s) =
      t.vars.filter fun s => s ∉ p.free ∧ s ∉ p.expr.occurrences := by
  refine List.filter_congr fun s _ => ?_
  by_cases hs : s ∈ p.free <;> simp [literals, mem_vars, hs]

theorem Pattern.covered_iff {p : Pattern} {t : Expr} :
    (t.vars.filter fun s => s ∉ p.free ∧ s ∉ p.expr.occurrences).isEmpty = true ↔
      ∀ s ∈ t.occurrences, s ∈ p.free ∨ s ∈ p.expr.occurrences := by
  simp only [List.isEmpty_iff, List.filter_eq_nil_iff, decide_eq_true_eq, ← not_or, not_not,
    mem_vars]

theorem Pattern.replacedBy_eq_ok {p : Pattern} {t : Expr} {r : Rule} :
    p.replacedBy t = .ok r ↔
      (∀ s ∈ t.occurrences, s ∈ p.free ∨ s ∈ p.expr.occurrences) ∧ r = ⟨p, t⟩ := by
  rw [replacedBy, missing_eq, ← covered_iff]
  split
  · next h => simp only [h, true_and, Except.ok.injEq, eq_comm]
  · next h => simp only [h, false_and, reduceCtorEq]

theorem Pattern.replacedBy_eq_error {p : Pattern} {t : Expr}
    (h : ¬ ∀ s ∈ t.occurrences, s ∈ p.free ∨ s ∈ p.expr.occurrences) :
    p.replacedBy t = .error (.unboundVariables
      ((t.vars.filter fun s => s ∉ p.free ∧ s ∉ p.expr.occurrences).map (·.name))) := by
  rw [replacedBy, missing_eq]
  exact if_neg fun hempty => h (covered_iff.1 hempty)

namespace Rule

variable {r : Rule} {ss : List Symbol} {e : Expr}

/-- Every variable of the replacement occurs in the pattern. -/
def Bound (r : Rule) : Prop := Within r.pattern.expr.occurrences r.replacement

theorem within_atRoot (hp : Canonical r.pattern.expr)
    (hr : ∀ s ∈ r.replacement.occurrences, s ∈ r.pattern.expr.occurrences ∨ s ∈ ss)
    (he : Canonical e) (hw : Within ss e) : ∀ d ∈ r.atRoot e, Within ss d := by
  intro d hd
  obtain ⟨a, ha, rfl⟩ := List.mem_map.1 hd
  have hvalues : a.Holds (Within ss) :=
    Kept.matcherKeeps (fun _ => (rebuilt_within ss).sum) (fun _ => (rebuilt_within ss).product)
      (fun _ h => h.operands) r.pattern.free r.pattern.expr e hw a ha
  have hfits := (matcher_finds r.pattern.free r.pattern.expr e a ha).fits
  refine within_substitute (fun s _ d hs => hvalues.get? hs) fun s hs hnone => ?_
  -- a variable that has no value is not free, or it does not occur in the pattern
  rcases hr s hs with hocc | hss
  · by_cases hfree : s ∈ r.pattern.free
    · obtain ⟨d, hd⟩ := hfits.binds hp he hfree hocc
      rw [hnone] at hd
      cases hd
    · exact hw s (hfits.occurs hp he hfree hocc)
  · exact hss

/-- The variables of the results are among any that hold those of the target and those that the
pattern does not bind. -/
theorem within_of_mem_apply (hp : Canonical r.pattern.expr) (hc : Canonical r.replacement)
    (hr : ∀ s ∈ r.replacement.occurrences, s ∈ r.pattern.expr.occurrences ∨ s ∈ ss)
    (he : Canonical e) (hw : Within ss e) : ∀ d ∈ r.apply e, Within ss d := by
  have hrebuilt := closed_canonical.rebuilt.and (rebuilt_within ss)
  intro d hd
  refine (hrebuilt.results (fun e he d hd => ?_) ⟨he, hw⟩ d (mem_of_mem_distinctFrom d hd)).2
  exact ⟨closed_canonical.atRoot hc he.1 d hd, within_atRoot hp hr he.1 he.2 d hd⟩

/-- Other variables of a result are those that the pattern declares free and that do not occur in
it. -/
theorem mem_occurrences_of_mem_apply {p : Pattern} {t : Expr} (hp : Canonical p.expr)
    (ht : Canonical t) (hr : p.replacedBy t = .ok r) (he : Canonical e) {d : Expr}
    (hd : d ∈ r.apply e) {s : Symbol} (hs : s ∈ d.occurrences) :
    s ∈ e.occurrences ∨ s ∈ t.occurrences ∧ s ∈ p.free ∧ s ∉ p.expr.occurrences := by
  obtain ⟨hcovered, rfl⟩ := Pattern.replacedBy_eq_ok.1 hr
  have hbring : ∀ s ∈ t.occurrences, s ∈ p.expr.occurrences ∨
      s ∈ e.occurrences ++ t.occurrences.filter (· ∉ p.expr.occurrences) := by
    intro s hs
    by_cases hocc : s ∈ p.expr.occurrences
    · exact .inl hocc
    · exact .inr (List.mem_append_right _ (List.mem_filter.2 ⟨hs, decide_eq_true hocc⟩))
  have hw := within_of_mem_apply hp ht hbring he
    ((Within.refl e).mono fun s => List.mem_append_left _) d hd s hs
  refine (List.mem_append.1 hw).imp_right fun h => ?_
  obtain ⟨hst, hocc⟩ := List.mem_filter.1 h
  exact ⟨hst, (hcovered s hst).resolve_right (of_decide_eq_true hocc), of_decide_eq_true hocc⟩

/-- No result of a rule has a variable that the target does not have, if the free variables that the
replacement uses occur in the pattern. -/
theorem vars_of_mem_apply {p : Pattern} {t : Expr} (hp : Constructible p.expr)
    (ht : Constructible t) (hr : p.replacedBy t = .ok r)
    (hfree : ∀ s ∈ t.vars, s ∈ p.free → s ∈ p.expr.vars) (he : Constructible e) :
    ∀ d ∈ r.apply e, ∀ s ∈ d.vars, s ∈ e.vars := by
  intro d hd s hs
  simp only [mem_vars] at hfree hs ⊢
  refine (mem_occurrences_of_mem_apply (constructible_canonical hp) (constructible_canonical ht) hr
    (constructible_canonical he) hd hs).resolve_right ?_
  rintro ⟨hst, hsf, hocc⟩
  exact hocc (hfree s hst hsf)

/-- The logarithm of a product, with a literal factor. -/
theorem vars_of_mem_apply_logarithm :
    let p := Pattern.withFree (applyOf .ln (ofName "a" * ofName "n")) [Symbol.ofName "a"]
    let t := applyOf .ln (ofName "a") + applyOf .ln (ofName "n")
    let e := applyOf .ln (productOf [ofName "x", ofName "y", ofName "n"])
    ∃ r, p.replacedBy t = .ok r ∧ (r.apply e).length = 1 ∧
      ∀ d ∈ r.apply e, ∀ s ∈ d.vars, s ∈ e.vars := by
  intro p t e
  have hvar (s : String) : Constructible (ofName s) := .var _ _
  have hp : Constructible (applyOf .ln (ofName "a" * ofName "n")) :=
    .apply .ln (.product (Closed.forall_pair (hvar "a") (hvar "n")))
  have ht : Constructible t :=
    .sum (Closed.forall_pair (.apply .ln (hvar "a")) (.apply .ln (hvar "n")))
  have he : Constructible e := .apply .ln (.product
    (List.forall_mem_cons.2 ⟨hvar "x", Closed.forall_pair (hvar "y") (hvar "n")⟩))
  have hok : p.replacedBy t = .ok ⟨p, t⟩ :=
    Pattern.replacedBy_eq_ok.2 ⟨by decide +kernel, rfl⟩
  exact ⟨⟨p, t⟩, hok, by decide +kernel, vars_of_mem_apply hp ht hok (by decide +kernel) he⟩

def ignoring : Definition := .ofNames "f" ["a", "b"] (applyOf .sin (ofName "a"))

/-- Its identity is accepted, and from right to left it leads from `sin(x)` to `f(x, b)`. -/
theorem not_vars_of_mem_apply :
    ∃ i, Identity.ofDefinition ignoring = .ok i ∧
      ∃ d ∈ i.backward.apply (applyOf .sin (ofName "x")),
        d.text = "f(x, b)" ∧ ∃ s ∈ d.vars, s ∉ (applyOf .sin (ofName "x")).vars := by
  have hfound : (Identity.ofDefinition ignoring).toOption.any (fun i =>
      (i.backward.apply (applyOf .sin (ofName "x"))).any fun d =>
        d.text == "f(x, b)" && d.vars.any fun s => !(applyOf .sin (ofName "x")).vars.contains s) =
      true := by
    decide +kernel
  cases hi : Identity.ofDefinition ignoring with
  | error x =>
    rw [hi] at hfound
    cases hfound
  | ok i =>
    rw [hi, Except.toOption, Option.any_some, List.any_eq_true] at hfound
    obtain ⟨d, hd, hfound⟩ := hfound
    rw [Bool.and_eq_true, beq_iff_eq, List.any_eq_true] at hfound
    obtain ⟨htext, s, hs, hnot⟩ := hfound
    exact ⟨i, rfl, d, hd, htext, s, hs, by simpa using hnot⟩

end Rule

/-! Identities. -/

namespace Identity

variable {i : Identity} {left right : Expr} {f : Definition}

theorem ofSides_eq_ok : ofSides left right = .ok i ↔
    (Pattern.ofExpr left).replacedBy right = .ok i.forward ∧
      (Pattern.ofExpr right).replacedBy left = .ok i.backward := by
  simp only [ofSides, except_bind_eq_ok]
  constructor
  · rintro ⟨forward, hf, backward, hb, h⟩
    cases h
    exact ⟨hf, hb⟩
  · rintro ⟨hf, hb⟩
    exact ⟨i.forward, hf, i.backward, hb, rfl⟩

def head (f : Definition) : Expr := f.on (f.params.map (.var · 0))

theorem mem_occurrences_head {s : Symbol} : s ∈ (head f).occurrences ↔ s ∈ f.params := by
  rw [head, Definition.on, occurrences, mem_occurrencesAll]
  simp [occurrences]

theorem covered_head {s : Symbol} : (s ∈ (Pattern.withFree (head f) f.params).free ∨
    s ∈ (Pattern.withFree (head f) f.params).expr.occurrences) ↔ s ∈ f.params := by
  rw [Pattern.withFree, Symbol.mem_sorted, mem_occurrences_head, or_self]

/-- From the call to the body, and back. -/
def unfolding (f : Definition) : Identity :=
  ⟨⟨.withFree (head f) f.params, f.body⟩, ⟨.withFree f.body f.params, head f⟩⟩

/-- All variables of the body have to be parameters. Nothing more is asked the other way, as the
parameters are declared free whether they occur or not. -/
theorem ofDefinition_eq_ok :
    ofDefinition f = .ok i ↔ (∀ s ∈ f.body.vars, s ∈ f.params) ∧ i = unfolding f := by
  have hcall : f.apply (f.params.map (.var · 0)) = .ok (head f) := if_pos (List.length_map ..)
  simp only [ofDefinition, hcall, except_bind_eq_ok, Pattern.replacedBy_eq_ok]
  constructor
  · rintro ⟨_, ⟨⟩, _, ⟨hcovered, rfl⟩, _, ⟨-, rfl⟩, ⟨⟩⟩
    exact ⟨fun s hs => covered_head.1 (hcovered s (mem_vars.1 hs)), rfl⟩
  · rintro ⟨hbody, rfl⟩
    refine ⟨head f, rfl, _, ⟨fun s hs => ?_, rfl⟩, _, ⟨fun s hs => ?_, rfl⟩, rfl⟩
    · exact covered_head.2 (hbody s (mem_vars.2 hs))
    · exact .inl (Symbol.mem_sorted.2 (mem_occurrences_head.1 hs))

/-- A call can always be given way to the body, but a body only to the call of a function that
ignores no parameter. -/
theorem bound_of_ofDefinition (h : ofDefinition f = .ok i) :
    i.forward.Bound ∧ (i.backward.Bound ↔ ∀ s ∈ f.params, s ∈ f.body.occurrences) := by
  obtain ⟨hbody, rfl⟩ := ofDefinition_eq_ok.1 h
  refine ⟨fun s hs => mem_occurrences_head.2 (hbody s (mem_vars.2 hs)), ?_⟩
  exact forall_congr' fun s => imp_congr mem_occurrences_head .rfl

end Identity

end Symbolic
