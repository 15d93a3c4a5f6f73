import Symbolic.Proofs.Pattern.Congruence
import Symbolic.Proofs.Search.Kept
import Symbolic.Proofs.Search.Reach

/-!
The rules of a search are regular if its identities are and the functions that it meets have steady
bodies (`regular_rules`); those of the standard search are (`regular_standard`). By regular rules,
steps lead from equal expressions to equal ones (`stepsAlike`).
-/

namespace Symbolic

open Symbolic.Expr

namespace Search

variable {s : Search} {rules : List Rule}

/-- The body of the function is steady, and so are those of the functions it calls. -/
def SteadyDefinition (f : Definition) : Prop := Steady f.body ∧ Stable f.body

theorem SteadyDefinition.on {f : Definition} (hf : SteadyDefinition f) {es : List Expr}
    (hl : es.length = f.params.length) (hes : ∀ e ∈ es, Stable e) : Stable (f.on es) :=
  ⟨.call hl hf.2.canonical fun e he => (hes e he).canonical,
    .call hf.1 hf.2.calls fun e he => (hes e he).calls⟩

/-- All functions that a stable expression uses have steady bodies. -/
theorem steady_of_uses {e : Expr} (he : Stable e) {f : Definition} (hf : Uses e f) :
    SteadyDefinition f := by
  obtain ⟨es, hcall⟩ := kept_stable.exists_on he hf
  have hsteady : Steady f.body := by
    cases hcall.calls
    assumption
  exact ⟨hsteady, (kept_stable.body hcall).2⟩

/-- A call of the parameters is as steady as the body that it gives way to. -/
theorem regular_of_ofDefinition {f : Definition} (hf : SteadyDefinition f) {i : Identity}
    (hi : Identity.ofDefinition f = .ok i) : ∀ r ∈ i.rules, r.Regular := by
  have hlen : (f.params.map fun s => Expr.var s 0).length = f.params.length := List.length_map ..
  have hvars : ∀ e ∈ f.params.map fun s => Expr.var s 0, ∃ s, e = .var s 0 := by
    intro e he
    obtain ⟨s, -, rfl⟩ := List.mem_map.1 he
    exact ⟨s, rfl⟩
  have hcall : Stable (f.on (f.params.map fun s => Expr.var s 0)) := by
    refine hf.on hlen fun e he => ?_
    obtain ⟨s, rfl⟩ := hvars e he
    exact kept_stable.var s 0
  have hsteady : Steady (f.on (f.params.map fun s => Expr.var s 0)) := by
    refine steady_iff.2 ⟨?_, fun d hd => ?_⟩
    · rw [same_iff, Definition.on, operands, withOperands, if_pos hlen]
      exact .refl _
    · obtain ⟨s, rfl⟩ := hvars d hd
      exact steady_iff.2 ⟨same_iff.2 (.refl _), fun d hd => by cases hd⟩
  obtain ⟨-, rfl⟩ := Identity.ofDefinition_eq_ok.1 hi
  intro r hr
  rcases List.mem_pair.1 (List.mem_of_mem_filter hr) with rfl | rfl
  · exact ⟨hcall.canonical, hf.2, hf.1⟩
  · exact ⟨hf.2.canonical, hcall, hsteady⟩

theorem regular_of_ofSides {left right : Expr} (hl : Stable left ∧ Steady left)
    (hr : Stable right ∧ Steady right) {i : Identity} (hi : Identity.ofSides left right = .ok i) :
    ∀ r ∈ i.rules, r.Regular := by
  obtain ⟨hfwd, hbwd⟩ := Identity.ofSides_eq_ok.1 hi
  intro r hr'
  rcases List.mem_pair.1 (List.mem_of_mem_filter hr') with rfl | rfl
  · rw [(Pattern.replacedBy_eq_ok.1 hfwd).2]
    exact ⟨hl.1.canonical, hr.1, hr.2⟩
  · rw [(Pattern.replacedBy_eq_ok.1 hbwd).2]
    exact ⟨hr.1.canonical, hl.1, hl.2⟩

theorem steady_standardSides : ∀ p ∈ standardSides, Steady p.1 ∧ Steady p.2 := by decide +kernel

theorem regular_standard : ∀ i ∈ standard.identities, ∀ r ∈ i.rules, r.Regular := by
  intro i hi
  obtain ⟨p, hp, hok⟩ := exists_standardSides hi
  obtain ⟨hl, hr⟩ := kept_stable.standardSides p hp
  obtain ⟨hsl, hsr⟩ := steady_standardSides p hp
  exact regular_of_ofSides ⟨hl, hsl⟩ ⟨hr, hsr⟩ hok

/-- The rules of a search that concerns stable expressions are regular if its identities are. -/
theorem regular_rules (hi : ∀ i ∈ s.identities, ∀ r ∈ i.rules, r.Regular) {es : List Expr}
    (hes : ∀ e ∈ es, Stable e) : ∀ r ∈ s.rules es, r.Regular :=
  forall_mem_rules hi fun e he _ hf _ => regular_of_ofDefinition (steady_of_uses (hes e he) hf)

theorem stepsAlike (hr : ∀ r ∈ rules, r.Regular) : StepsAlike Stable (step rules) where
  keeps he hd := by
    obtain ⟨r, hmem, hd⟩ := List.mem_flatMap.1 hd
    exact kept_stable.rule (hr r hmem).replacement he _ hd
  alike he he' h hd := by
    obtain ⟨r, hmem, hd⟩ := List.mem_flatMap.1 hd
    rcases Rule.apply_alike (hr r hmem) he.canonical he'.canonical h hd with h | ⟨d', hd', hdd⟩
    · exact .inl h
    · exact .inr ⟨d', List.mem_flatMap.2 ⟨r, hmem, hd'⟩, hdd⟩

end Search

end Symbolic
