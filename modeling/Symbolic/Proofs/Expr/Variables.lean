import Symbolic.Expr.Measure
import Symbolic.Proofs.Expr.Alike
import Symbolic.Proofs.Expr.Nodewise
import Symbolic.Proofs.Expr.Substitution

/-!
The variables that occur. The constructors bring in none (`nodewise_within`), and replacement only
those of the values and those that are not replaced (`within_substitute`).
-/

namespace Symbolic

theorem Symbol.mem_insert {s t : Symbol} {ts : List Symbol} :
    s ∈ insert t ts ↔ s = t ∨ s ∈ ts := by
  induction ts with
  | nil => simp [insert]
  | cons u ts ih =>
    rw [insert]
    split
    · simp
    · next h =>
      rw [Expr.symbolOrder_eq_eq.1 h]
      simp
    · rw [List.mem_cons, ih, List.mem_cons]
      exact or_left_comm

theorem Symbol.mem_sorted {s : Symbol} {ss : List Symbol} : s ∈ sorted ss ↔ s ∈ ss := by
  have h : ∀ acc, s ∈ ss.foldl (fun acc s => insert s acc) acc ↔ s ∈ ss ∨ s ∈ acc := by
    induction ss with
    | nil => simp
    | cons t ts ih =>
      intro acc
      rw [List.foldl_cons, ih, mem_insert, List.mem_cons, or_assoc]
      exact or_left_comm
  simpa [sorted] using h []

namespace Expr

variable {s : Symbol} {ss : List Symbol} {e : Expr} {es : List Expr}

theorem mem_vars : s ∈ e.vars ↔ s ∈ e.occurrences := Symbol.mem_sorted

theorem mem_occurrencesAll : s ∈ occurrencesAll es ↔ ∃ e ∈ es, s ∈ occurrences e := by
  induction es with
  | nil => simp [occurrencesAll]
  | cons e es ih => rw [occurrencesAll, List.mem_append, ih, List.exists_mem_cons_iff]

theorem mem_occurrences_alike {a b : Expr} (h : Alike a b) :
    s ∈ a.occurrences ↔ s ∈ b.occurrences := by
  have hlist {as bs cs : List Expr} (hp : cs.Perm bs)
      (h : List.Forall₂ (fun a b => s ∈ a.occurrences ↔ s ∈ b.occurrences) as cs) :
      s ∈ occurrencesAll as ↔ s ∈ occurrencesAll bs := by
    have hall : Rearranged (fun a b => s ∈ a.occurrences ↔ s ∈ b.occurrences) as bs := ⟨cs, h, hp⟩
    rw [mem_occurrencesAll, mem_occurrencesAll]
    constructor
    · rintro ⟨a, ha, hs⟩
      obtain ⟨b, hb, hab⟩ := hall.exists_left a ha
      exact ⟨b, hb, hab.1 hs⟩
    · rintro ⟨b, hb, hs⟩
      obtain ⟨a, ha, hab⟩ := hall.exists_right b hb
      exact ⟨a, ha, hab.2 hs⟩
  refine alike_induction (motive := fun a b => s ∈ a.occurrences ↔ s ∈ b.occurrences) ?const ?var
    ?sum ?product ?pow ?apply ?call a b h
  case const => exact fun _ => .rfl
  case var => exact fun _ _ _ => .rfl
  case sum => exact fun as bs cs hp h => hlist hp h
  case product => exact fun as bs cs hp h => hlist hp h
  case pow =>
    intro b p b' p' hb hp
    rw [occurrences, occurrences, List.mem_append, List.mem_append, hb, hp]
  case apply => exact fun _ _ _ h => h
  case call => exact fun _ _ _ _ as bs _ h => hlist (.refl _) h

/-- All variables of the expression are among these. -/
def Within (ss : List Symbol) (e : Expr) : Prop := ∀ s ∈ e.occurrences, s ∈ ss

theorem Within.refl (e : Expr) : Within e.occurrences e := fun _ => id

theorem Within.mono {ts : List Symbol} (h : Within ss e) (hst : ∀ s ∈ ss, s ∈ ts) : Within ts e :=
  fun s hs => hst s (h s hs)

theorem within_occurrencesAll : (∀ s ∈ occurrencesAll es, s ∈ ss) ↔ ∀ e ∈ es, Within ss e := by
  simp only [mem_occurrencesAll]
  exact ⟨fun h e he s hs => h s ⟨e, he, hs⟩, fun h s ⟨e, he, hs⟩ => h e he s hs⟩

theorem within_call {f : String} {ps : List Symbol} {b : Expr} :
    Within ss (call f ps b es) ↔ ∀ e ∈ es, Within ss e := within_occurrencesAll

theorem nodewise_within (ss : List Symbol) : Nodewise (Within ss) where
  const _ := List.forall_mem_nil _
  site h := h
  sum := within_occurrencesAll
  product := within_occurrencesAll
  pow := List.forall_mem_append
  apply := .rfl

theorem Within.operands (h : Within ss e) : ∀ d ∈ e.operands, Within ss d := by
  have hn := nodewise_within ss
  cases e with
  | const c => exact List.forall_mem_nil _
  | var s k => exact List.forall_mem_nil _
  | sum es => exact hn.sum.1 h
  | product es => exact hn.product.1 h
  | pow b p => exact Closed.forall_pair (hn.pow.1 h).1 (hn.pow.1 h).2
  | apply f d => exact List.forall_mem_singleton.2 (hn.apply.1 h)
  | call f ps b es => exact within_call.1 h

/-- After replacement: variables of the values, and those that have none. -/
theorem within_substitute {σ : Symbol → Option Expr}
    (hσ : ∀ s ∈ e.occurrences, ∀ d, σ s = some d → Within ss d)
    (hstay : ∀ s ∈ e.occurrences, σ s = none → s ∈ ss) : Within ss (e.substitute σ) := by
  have h := nodewise_within ss
  have hlist {es : List Expr}
      (ih : ∀ e ∈ es, (∀ s ∈ e.occurrences, ∀ d, σ s = some d → Within ss d) →
        (∀ s ∈ e.occurrences, σ s = none → s ∈ ss) → Within ss (e.substitute σ))
      (hσ : ∀ s ∈ occurrencesAll es, ∀ d, σ s = some d → Within ss d)
      (hstay : ∀ s ∈ occurrencesAll es, σ s = none → s ∈ ss) :
      ∀ e ∈ es.map (substitute σ), Within ss e := by
    refine List.forall_mem_map.2 fun e he => ih e he ?_ ?_
    · exact fun s hs => hσ s (mem_occurrencesAll.2 ⟨e, he, hs⟩)
    · exact fun s hs => hstay s (mem_occurrencesAll.2 ⟨e, he, hs⟩)
  induction e with
  | const c => exact h.const c
  | var s k =>
    rw [substitute_var]
    cases hs : σ s with
    | none =>
      intro t ht
      obtain rfl := List.mem_singleton.1 ht
      exact hstay t ht hs
    | some d => exact hσ s List.mem_cons_self d hs
  | sum es ih =>
    have hes := hlist ih hσ hstay
    rcases substitute_sum (σ := σ) es with ⟨hself, hmap⟩ | hrebuilt
    · rw [hself]
      exact h.sum.2 (hmap ▸ hes)
    · rw [hrebuilt]
      exact h.sumOf hes
  | product es ih =>
    have hes := hlist ih hσ hstay
    rcases substitute_product (σ := σ) es with ⟨hself, hmap⟩ | hrebuilt
    · rw [hself]
      exact h.product.2 (hmap ▸ hes)
    · rw [hrebuilt]
      exact h.productOf hes
  | pow b p ihb ihp =>
    have hb := ihb (fun s hs => hσ s (List.mem_append_left _ hs))
      fun s hs => hstay s (List.mem_append_left _ hs)
    have hp := ihp (fun s hs => hσ s (List.mem_append_right _ hs))
      fun s hs => hstay s (List.mem_append_right _ hs)
    rcases substitute_pow (σ := σ) b p with ⟨hself, hb', hp'⟩ | hrebuilt
    · rw [hself]
      rw [hb'] at hb
      rw [hp'] at hp
      exact h.pow.2 ⟨hb, hp⟩
    · rw [hrebuilt]
      exact h.powOf hb hp
  | apply f d ih =>
    have hd := ih hσ hstay
    rcases substitute_apply (σ := σ) f d with ⟨hself, hd'⟩ | hrebuilt
    · rw [hself]
      rw [hd'] at hd
      exact h.apply.2 hd
    · rw [hrebuilt]
      exact h.applyOf f hd
  | call f ps b es _ ih =>
    rw [substitute_call]
    exact within_call.2 (hlist ih hσ hstay)

/-- A variable that occurs after replacement stood there and has no value, or it occurs in the value
of one that stood there: what is put in is not looked through again. -/
theorem mem_vars_substitute {σ : Symbol → Option Expr} (h : s ∈ (e.substitute σ).vars) :
    s ∈ e.vars ∧ σ s = none ∨ ∃ t ∈ e.vars, ∃ d, σ t = some d ∧ s ∈ d.vars := by
  let values (t : Symbol) : List Symbol := (σ t).elim [] occurrences
  have hw : Within (e.occurrences.filter (σ · = none) ++ e.occurrences.flatMap values)
      (e.substitute σ) := by
    refine within_substitute (fun t ht d hd u hu => ?_) fun t ht hn => ?_
    · refine List.mem_append_right _ (List.mem_flatMap.2 ⟨t, ht, ?_⟩)
      show u ∈ (σ t).elim [] occurrences
      rwa [hd]
    · exact List.mem_append_left _ (List.mem_filter.2 ⟨ht, decide_eq_true hn⟩)
  simp only [mem_vars] at h ⊢
  rcases List.mem_append.1 (hw s h) with hs | hs
  · obtain ⟨hs, hn⟩ := List.mem_filter.1 hs
    exact .inl ⟨hs, of_decide_eq_true hn⟩
  · obtain ⟨t, ht, hs⟩ := List.mem_flatMap.1 hs
    replace hs : s ∈ (σ t).elim [] occurrences := hs
    cases hd : σ t with
    | none =>
      rw [hd] at hs
      cases hs
    | some d =>
      rw [hd] at hs
      exact .inr ⟨t, ht, d, hd, hs⟩

end Expr

end Symbolic
