import Symbolic.Proofs.Expr.Calls
import Symbolic.Proofs.Search.Invariant
import Symbolic.Proofs.Search.Variables

/-!
What every operation keeps, a search keeps. The rules of a search are those of its identities and
those of the functions that are used at its start (`Search.forall_mem_rules`). What a rule makes has a
property that every operation keeps if the replacement has it: the body and the call of a function
have it where the function is used (`Kept.exists_on`), and so have the sides of the standard identities,
which constructors build from variables and numbers (`Kept.standardSides`). So the simplest expression
has all such properties that the start has (`Kept.simplest`).
-/

namespace Symbolic

open Symbolic.Expr

namespace Search

variable {s : Search}

theorem exists_standardSides {i : Identity} (hi : i ∈ standard.identities) :
    ∃ p ∈ standardSides, Identity.ofSides p.1 p.2 = .ok i := by
  obtain ⟨p, hp, hpi⟩ := List.mem_filterMap.1 hi
  refine ⟨p, hp, ?_⟩
  cases hok : Identity.ofSides p.1 p.2 with
  | error e => simp [hok, Except.toOption] at hpi
  | ok j =>
    simp only [hok, Except.toOption, Option.some.injEq] at hpi
    rw [hpi]

theorem mem_of_mem_distinctFunctions {es : List Expr} :
    ∀ f ∈ distinctFunctions es, ∃ e ∈ es, f ∈ functions e := by
  have hfold (fs seen : List Definition) :
      ∀ f ∈ fs.foldl (fun seen f => if seen.any (·.same f) then seen else seen ++ [f]) seen,
        f ∈ seen ∨ f ∈ fs := by
    induction fs generalizing seen with
    | nil => exact fun f => .inl
    | cons g fs ih =>
      intro f hf
      rcases ih _ f hf with h | h
      · simp only at h
        split at h
        · exact .inl h
        · rcases List.mem_append.1 h with h | h
          · exact .inl h
          · exact .inr (List.mem_singleton.1 h ▸ List.mem_cons_self)
      · exact .inr (List.mem_cons_of_mem _ h)
  intro f hf
  exact List.mem_flatMap.1 ((hfold _ _ f hf).resolve_left List.not_mem_nil)

/-- A rule of a search comes from an identity, or from a function that is used. -/
theorem forall_mem_rules {Q : Rule → Prop} (hi : ∀ i ∈ s.identities, ∀ r ∈ i.rules, Q r)
    {es : List Expr} (hf : ∀ e ∈ es, ∀ f, Uses e f → ∀ i, Identity.ofDefinition f = .ok i →
      ∀ r ∈ i.rules, Q r) : ∀ r ∈ s.rules es, Q r := by
  intro r hr
  rcases List.mem_append.1 hr with hr | hr
  · obtain ⟨i, his, hr⟩ := List.mem_flatMap.1 hr
    exact hi i his r hr
  split at hr
  · obtain ⟨f, hmem, hr⟩ := List.mem_flatMap.1 hr
    obtain ⟨e, he, hmem⟩ := mem_of_mem_distinctFunctions f hmem
    split at hr
    · next i hok => exact hf e he f (uses_of_mem_functions hmem) i hok r hr
    · cases hr
  · cases hr

end Search

namespace Kept

variable {P : Expr → Prop} {s : Search}

theorem exists_on (h : Kept P) {e : Expr} (he : P e) {f : Definition} (hf : Uses e f) :
    ∃ es, P (f.on es) := by
  induction hf with
  | root hf => exact forall_calls (fun _ => h.operands) he _ hf
  | inner _ hg ih =>
    obtain ⟨es, hcall⟩ := ih
    exact forall_calls (fun _ => h.operands) (h.body hcall).2 _ hg

/-- Where some call has the property, the call on the parameters has it. -/
theorem head (h : Kept P) {f : Definition} {es : List Expr} (hf : P (f.on es)) :
    P (Identity.head f) := by
  refine h.callAgain hf (List.length_map ..) fun e he => ?_
  obtain ⟨s, -, rfl⟩ := List.mem_map.1 he
  exact h.var s 0

theorem standardSides (h : Kept P) : ∀ p ∈ Symbolic.standardSides, P p.1 ∧ P p.2 := by
  have ha : P (ofName "a") := h.var _ _
  have hb : P (ofName "b") := h.var _ _
  have hc : P (ofName "c") := h.var _ _
  have htwo : P (Expr.const 2) := h.const 2
  have hsum {x y : Expr} (hx : P x) (hy : P y) : P (x + y) := h.sum (Closed.forall_pair hx hy)
  have hmul {x y : Expr} (hx : P x) (hy : P y) : P (x * y) := h.product (Closed.forall_pair hx hy)
  simp only [Symbolic.standardSides, List.forall_mem_cons]
  refine ⟨⟨?_, ?_⟩, ⟨?_, ?_⟩, ⟨?_, ?_⟩, ⟨?_, ?_⟩, ⟨?_, ?_⟩, ⟨?_, ?_⟩, ⟨?_, ?_⟩, List.forall_mem_nil _⟩
  · exact hmul ha (hsum hb hc)
  · exact hsum (hmul ha hb) (hmul ha hc)
  · exact h.apply .ln (hmul ha hb)
  · exact hsum (h.apply .ln ha) (h.apply .ln hb)
  · exact h.apply .ln (h.pow ha hb)
  · exact hmul hb (h.apply .ln ha)
  · exact h.pow (hmul ha hb) hc
  · exact hmul (h.pow ha hc) (h.pow hb hc)
  · exact h.apply .sin (h.apply .arcsin ha)
  · exact ha
  · exact h.apply .sign (hmul ha hb)
  · exact hmul (h.apply .sign ha) (h.apply .sign hb)
  · exact h.pow (hsum ha hb) htwo
  · exact h.sum (List.forall_mem_cons.2
      ⟨h.pow ha htwo, Closed.forall_pair (hmul (hmul htwo ha) hb) (h.pow hb htwo)⟩)

/-- The replacements of the standard identities are the sides of them. -/
theorem standardReplacements (h : Kept P) :
    ∀ i ∈ Search.standard.identities, ∀ r ∈ i.rules, P r.replacement := by
  intro i hi r hr
  obtain ⟨p, hp, hok⟩ := Search.exists_standardSides hi
  obtain ⟨hleft, hright⟩ := h.standardSides p hp
  obtain ⟨hforward, hbackward⟩ := Identity.ofSides_eq_ok.1 hok
  rcases List.mem_pair.1 (List.mem_of_mem_filter hr) with rfl | rfl
  · rwa [(Pattern.replacedBy_eq_ok.1 hforward).2]
  · rwa [(Pattern.replacedBy_eq_ok.1 hbackward).2]

/-- The replacements of a search have what the start and those of its identities have. -/
theorem replacements (h : Kept P) (hs : ∀ i ∈ s.identities, ∀ r ∈ i.rules, P r.replacement)
    {es : List Expr} (hes : ∀ e ∈ es, P e) : ∀ r ∈ s.rules es, P r.replacement := by
  refine Search.forall_mem_rules hs fun e he f hf i hi r hr => ?_
  obtain ⟨as, hcall⟩ := h.exists_on (hes e he) hf
  obtain ⟨-, rfl⟩ := Identity.ofDefinition_eq_ok.1 hi
  rcases List.mem_pair.1 (List.mem_of_mem_filter hr) with rfl | rfl
  · exact (h.body hcall).2
  · exact h.head hcall

theorem simplest (h : Kept P) (hs : ∀ i ∈ s.identities, ∀ r ∈ i.rules, P r.replacement) {e : Expr}
    (he : P e) : P (s.simplest e) := by
  have hreplaced := h.replacements hs (List.forall_mem_singleton.2 he)
  exact Search.simplestBy_holds size (fun r hr _ hd => h.rule (hreplaced r hr) hd) he

end Kept

end Symbolic
