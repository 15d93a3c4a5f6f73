import Symbolic.Proofs.Search.Regular

/-!
The identities of functions: which functions have one (`Identity.ofDefinition_usable`), and which of
the functions that an expression uses give a search their rules (`Search.functions_complete`).

An identity is refused if the body reads a variable that is no parameter. It is not refused if a
parameter is missing in the body; then its rule from right to left is not bound.

The functions of an expression are collected by name. All are found if whatever functions of one name
are used are the same, and only then.
-/

namespace Symbolic

open Symbolic.Expr

namespace Identity

variable {f g : Definition} {i : Identity}

theorem exists_ofDefinition :
    (∃ i, ofDefinition f = .ok i) ↔ ∀ s ∈ f.body.vars, s ∈ f.params := by
  simp only [ofDefinition_eq_ok, exists_and_left, exists_eq, and_true]

/-- The error names the variables of the body that are no parameters. -/
theorem ofDefinition_eq_error (h : ¬ ∀ s ∈ f.body.vars, s ∈ f.params) :
    ofDefinition f = .error (.unboundVariables
      ((f.body.vars.filter fun s => s ∉ f.params).map (·.name))) := by
  have hcall : f.apply (f.params.map (.var · 0)) = .ok (head f) := if_pos (List.length_map ..)
  have herror := Pattern.replacedBy_eq_error (p := Pattern.withFree (head f) f.params)
    (t := f.body) fun hall => h fun s hs => covered_head.1 (hall s (mem_vars.1 hs))
  simp only [← not_or, covered_head] at herror
  rw [ofDefinition, hcall]
  change (Pattern.withFree (head f) f.params).replacedBy f.body >>= _ = _
  rw [herror]
  rfl

/-- A function has an identity exactly if its body has no variables but the parameters, and otherwise
the error names those that it has. The identity can be used both ways exactly if the variables of the
body are the parameters; so it is a matter of having one if the body ignores no parameter. -/
theorem ofDefinition_usable (f : Definition) :
    ((∃ i, ofDefinition f = .ok i) ↔ ∀ s ∈ f.body.vars, s ∈ f.params) ∧
      ((¬ ∃ i, ofDefinition f = .ok i) → ofDefinition f = .error (.unboundVariables
        ((f.body.vars.filter fun s => s ∉ f.params).map (·.name)))) ∧
      ((∃ i, ofDefinition f = .ok i ∧ i.forward.Bound ∧ i.backward.Bound) ↔
        ∀ s, s ∈ f.body.vars ↔ s ∈ f.params) ∧
      ((∀ s ∈ f.params, s ∈ f.body.vars) →
        ((∃ i, ofDefinition f = .ok i) ↔ ∀ s, s ∈ f.body.vars ↔ s ∈ f.params)) := by
  refine ⟨exists_ofDefinition, fun h => ?_, ⟨?_, fun h => ?_⟩, fun hparams => ?_⟩
  · exact ofDefinition_eq_error (exists_ofDefinition.not.1 h)
  · rintro ⟨i, hi, -, hback⟩ s
    refine ⟨exists_ofDefinition.1 ⟨i, hi⟩ s, fun hs => ?_⟩
    exact mem_vars.2 ((bound_of_ofDefinition hi).2.1 hback s hs)
  · obtain ⟨i, hi⟩ := exists_ofDefinition.2 fun s hs => (h s).1 hs
    obtain ⟨hforward, hback⟩ := bound_of_ofDefinition hi
    exact ⟨i, hi, hforward, hback.2 fun s hs => mem_vars.1 ((h s).2 hs)⟩
  · rw [exists_ofDefinition]
    exact ⟨fun h s => ⟨h s, hparams s⟩, fun h s => (h s).1⟩

/-- The body `sin(a)` of `f(a, b)` has lost a parameter, and the function has an identity. -/
theorem not_ofDefinition_usable :
    ∃ s ∈ Rule.ignoring.params, s ∉ Rule.ignoring.body.vars ∧
      ∃ i, ofDefinition Rule.ignoring = .ok i :=
  ⟨.ofName "b", by decide +kernel, by decide +kernel,
    exists_ofDefinition.2 (by decide +kernel)⟩

end Identity

/-- Equal sides, and the same variables free. -/
structure Rule.Same (r r' : Rule) : Prop where
  pattern : Alike r.pattern.expr r'.pattern.expr
  free : r.pattern.free = r'.pattern.free
  replacement : Alike r.replacement r'.replacement

theorem Rule.Same.isWildcard_eq {r r' : Rule} (h : r.Same r') :
    r.pattern.isWildcard = r'.pattern.isWildcard := by
  obtain ⟨⟨p, free⟩, t⟩ := r
  obtain ⟨⟨p', free'⟩, t'⟩ := r'
  obtain rfl : free = free' := h.free
  have hp : Alike p p' := h.pattern
  cases p with
  | var s k =>
    obtain ⟨l, rfl⟩ := hp.eq_var
    rfl
  | _ => cases p' <;> first | rfl | cases hp

namespace Identity

variable {f g : Definition} {i : Identity}

theorem exists_same (h : f.same g = true) (hi : ofDefinition f = .ok i) :
    ∃ j, ofDefinition g = .ok j ∧ i.forward.Same j.forward ∧ i.backward.Same j.backward := by
  obtain ⟨hname, hparams, hbody⟩ := Definition.same_iff.1 h
  obtain ⟨hcovered, rfl⟩ := ofDefinition_eq_ok.1 hi
  have hhead : Alike (head f) (head g) := by
    rw [head, head, hparams]
    exact alike_call.2 ⟨hname, hparams, hbody, List.forall₂_same.2 fun a _ => .refl a⟩
  refine ⟨unfolding g, ofDefinition_eq_ok.2 ⟨fun s hs => ?_, rfl⟩, ?_, ?_⟩
  · have hsf := (mem_occurrences_alike hbody).2 (mem_vars.1 hs)
    exact hparams ▸ hcovered s (mem_vars.2 hsf)
  · exact ⟨hhead, congrArg Symbol.sorted hparams, hbody⟩
  · exact ⟨hbody, congrArg Symbol.sorted hparams, hhead⟩

theorem exists_mem_rules {j : Identity} (hf : i.forward.Same j.forward)
    (hb : i.backward.Same j.backward) : ∀ r ∈ i.rules, ∃ r' ∈ j.rules, r.Same r' := by
  intro r hr
  obtain ⟨hr, hwild⟩ := List.mem_filter.1 hr
  rcases List.mem_pair.1 hr with rfl | rfl
  · exact ⟨j.forward, List.mem_filter.2 ⟨List.mem_cons_self, hf.isWildcard_eq ▸ hwild⟩, hf⟩
  · exact ⟨j.backward, List.mem_filter.2 ⟨List.mem_cons_of_mem _ List.mem_cons_self,
      hb.isWildcard_eq ▸ hwild⟩, hb⟩

end Identity

namespace Search

variable {e : Expr} {es : List Expr} {f : Definition}

/-- Of the functions that the expressions call, none is left out. -/
theorem exists_mem_distinctFunctions (he : e ∈ es) (hf : f ∈ functions e) :
    ∃ g ∈ distinctFunctions es, f.same g = true := by
  have hfold (fs seen : List Definition) : ∀ f, (f ∈ fs ∨ ∃ g ∈ seen, f.same g = true) →
      ∃ g ∈ fs.foldl (fun seen f => if seen.any (·.same f) then seen else seen ++ [f]) seen,
        f.same g = true := by
    induction fs generalizing seen with
    | nil => exact fun f h => h.resolve_left List.not_mem_nil
    | cons g fs ih =>
      have hkept : seen ⊆ if seen.any (·.same g) then seen else seen ++ [g] := by
        split
        · exact List.Subset.refl _
        · exact List.subset_append_left _ _
      rintro f (hf | ⟨d, hd, hfd⟩)
      · rcases List.mem_cons.1 hf with rfl | hf
        · refine ih _ f (.inr ?_)
          beta_reduce
          split
          · next hany =>
            obtain ⟨d, hd, hdf⟩ := List.any_eq_true.1 hany
            exact ⟨d, hd, Definition.same_symm hdf⟩
          · exact ⟨f, List.mem_append_right _ List.mem_cons_self, Definition.same_refl f⟩
        · exact ih _ f (.inl hf)
      · exact ih _ f (.inr ⟨d, hkept hd, hfd⟩)
  exact hfold _ _ f (.inl (List.mem_flatMap.2 ⟨e, he, hf⟩))

/-- The search has the rules of all functions that are collected, up to equality. -/
theorem exists_mem_rules {s : Search} (hs : s.useDefinitions = true) (he : e ∈ es)
    (hf : ∃ g ∈ functions e, f.same g = true) {i : Identity}
    (hi : Identity.ofDefinition f = .ok i) : ∀ r ∈ i.rules, ∃ r' ∈ s.rules es, r.Same r' := by
  obtain ⟨g, hg, hfg⟩ := hf
  obtain ⟨d, hd, hgd⟩ := exists_mem_distinctFunctions he hg
  obtain ⟨j, hj, hforward, hbackward⟩ := Identity.exists_same (Definition.same_trans hfg hgd) hi
  intro r hr
  obtain ⟨r', hr', hsame⟩ := Identity.exists_mem_rules hforward hbackward r hr
  refine ⟨r', List.mem_append_right _ ?_, hsame⟩
  rw [if_pos hs]
  refine List.mem_flatMap.2 ⟨d, hd, ?_⟩
  rw [hj]
  exact hr'

/-- The functions that are collected are used, and they differ, even in their names. All that are used
are among them exactly if functions of one name are the same. Then a search has the rules of all. -/
theorem functions_complete (e : Expr) :
    (∀ f ∈ e.functions, Uses e f) ∧ (e.functions.map (·.name)).Nodup ∧
      e.functions.Pairwise (fun f g => f.same g = false) ∧
      ((∀ f, Uses e f → ∃ g ∈ e.functions, f.same g = true) ↔ OnePerName e) ∧
      (OnePerName e → ∀ s : Search, s.useDefinitions = true → ∀ es, e ∈ es → ∀ f, Uses e f →
        ∀ i, Identity.ofDefinition f = .ok i → ∀ r ∈ i.rules, ∃ r' ∈ s.rules es, r.Same r') := by
  have hnames := nodup_names_functions e
  refine ⟨fun f => uses_of_mem_functions, hnames, ?_, ⟨fun hall f g hf hg hn => ?_, ?_⟩, ?_⟩
  · exact (List.pairwise_map.1 hnames).imp Definition.same_eq_false_of_name
  · -- both are found under their name, of which there is one
    obtain ⟨f', hf', hff'⟩ := hall f hf
    obtain ⟨g', hg', hgg'⟩ := hall g hg
    have hn' : f'.name = g'.name := by
      rw [← (Definition.same_iff.1 hff').1, ← (Definition.same_iff.1 hgg').1, hn]
    obtain rfl := List.inj_on_of_nodup_map hnames hf' hg' hn'
    exact Definition.same_trans hff' (Definition.same_symm hgg')
  · exact fun h f hf => h.exists_mem_functions hf
  · intro h s hs es he f hf i hi
    exact exists_mem_rules hs he (h.exists_mem_functions hf) hi

def caller : Definition := .ofNames "g" ["t"] (Builtin.cos.on [ofName "t"])

/-- In `g(x)`, the cosine is found by way of the body of `g`, and a search has the rules for both. -/
theorem functions_complete_caller :
    let e := caller.on [ofName "x"]
    OnePerName e ∧ (∃ g ∈ e.functions, Builtin.cos.definition.same g = true) ∧
      ∃ i, Identity.ofDefinition Builtin.cos.definition = .ok i ∧
        ∃ r' ∈ standard.rules [e], i.forward.Same r' := by
  intro e
  have hcalls : Builtin.cos.definition.body.calls = [] :=
    List.isEmpty_iff.1 (by decide +kernel)
  have huses : ∀ f, Uses e f → f = caller ∨ f = Builtin.cos.definition := by
    intro f hf
    induction hf with
    | root hf => exact .inl (List.mem_singleton.1 hf)
    | inner _ hg ih =>
      rcases ih with rfl | rfl
      · exact .inr (List.mem_singleton.1 hg)
      · rw [hcalls] at hg
        cases hg
  have hname : OnePerName e := by
    intro f g hf hg hn
    rcases huses f hf with rfl | rfl <;> rcases huses g hg with rfl | rfl
    · exact Definition.same_refl _
    · exact absurd hn (by decide)
    · exact absurd hn (by decide)
    · exact Definition.same_refl _
  have hcos : Uses e Builtin.cos.definition := .inner (.root List.mem_cons_self) List.mem_cons_self
  obtain ⟨-, -, -, hfound, hsearch⟩ := functions_complete e
  have hi : Identity.ofDefinition Builtin.cos.definition = .ok (.unfolding _) :=
    Identity.ofDefinition_eq_ok.2 ⟨by decide +kernel, rfl⟩
  refine ⟨hname, hfound.2 hname _ hcos, _, hi, ?_⟩
  exact hsearch hname standard rfl [e] List.mem_cons_self _ hcos _ hi _
    (List.mem_filter.2 ⟨List.mem_cons_self, rfl⟩)

def shadow : Definition := .ofNames "cos" ["t"] (ofName "t")

/-- In `cos(g(x))`, the name of the cosine stands for another function; the body of `g` calls the
cosine itself. It is not found, and a search has no rule for it. -/
theorem not_functions_complete :
    let e := shadow.on [caller.on [ofName "x"]]
    let s : Search := ⟨some defaultDepth, .wide, [], true⟩
    Uses e Builtin.cos.definition ∧ (∀ g ∈ e.functions, Builtin.cos.definition.same g = false) ∧
      ∃ i, Identity.ofDefinition Builtin.cos.definition = .ok i ∧ i.forward ∈ i.rules ∧
        ∀ r' ∈ s.rules [e], ¬ i.forward.Same r' := by
  intro e s
  have hcaller : Uses e caller := .root (List.mem_cons_of_mem _ List.mem_cons_self)
  have hi : Identity.ofDefinition Builtin.cos.definition = .ok (.unfolding _) :=
    Identity.ofDefinition_eq_ok.2 ⟨by decide +kernel, rfl⟩
  have hdiffer : ∀ r' ∈ s.rules [e],
      alike (Identity.head Builtin.cos.definition) r'.pattern.expr = false := by
    decide +kernel
  refine ⟨.inner hcaller List.mem_cons_self, by decide +kernel, _, hi,
    List.mem_filter.2 ⟨List.mem_cons_self, rfl⟩, fun r' hr' hsame => ?_⟩
  exact Bool.false_ne_true ((hdiffer r' hr').symm.trans hsame.pattern)

end Search

end Symbolic
