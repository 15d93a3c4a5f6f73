import Symbolic.Expr.Atomic
import Symbolic.Proofs.Canonical.Steady
import Symbolic.Proofs.Expr.Depth

/-!
Expansion without a depth given beforehand. To expand an expression, its operands have to be expanded,
and the body of a called function once the expanded arguments are in place. No chain of such
expansions goes on forever (`acc_pending`): a body lies less deep in calls, and operands are smaller.

Nodes keep what they expand to, so an expression is not always expanded the same way: whether it is
atomic, and what its atomic form is, may have been kept from an earlier time (`Tests`, `Keeps`,
`Expands`). What is found does not depend on that (`atomic_complete`).
-/

namespace Symbolic.Expr

variable {e d r : Expr} {es rs : List Expr} {k : Nat}

/-- No call is among the subtrees. -/
def CallFree (e : Expr) : Prop := ∀ t, Subtree e t → t.definition? = none

theorem callFree_iff : CallFree e ↔ e.definition? = none ∧ ∀ d ∈ e.operands, CallFree d :=
  forall_subtree

/-- An expression is atomic if it is no call and the operands are atomic. -/
theorem isAtomic_iff :
    e.isAtomic = true ↔ e.definition? = none ∧ ∀ d ∈ e.operands, d.isAtomic = true := by
  cases e <;> simp [isAtomic, allAtomic_eq_all, definition?, operands]

theorem isAtomic_iff_callFree : e.isAtomic = true ↔ CallFree e := by
  induction e using operand_induction with
  | h e ih =>
    rw [isAtomic_iff, callFree_iff]
    exact and_congr_right fun _ => forall_congr' fun d => imp_congr_right (ih d)

theorem isAtomic_of_callDepth (h : callDepth e ≤ 0) : e.isAtomic = true := by
  induction e using operand_induction with
  | h e ih =>
    refine isAtomic_iff.2 ⟨?_, fun d hd => ih d hd ((callDepth_operand hd).trans h)⟩
    cases e with
    | call f ps b es => cases h
    | _ => rfl

/-! Expansion to a depth. -/

section Within

variable {again : Expr → Expr}

theorem expandWith_of_isAtomic (h : e.isAtomic = true) : expandWith again e = e := by
  cases e <;> simp_all [isAtomic, expandWith]

theorem expandWith_node (hn : e.definition? = none) (h : e.isAtomic = false) :
    expandWith again e = e.withOperands (e.operands.map (expandWith again)) := by
  cases e <;>
    simp_all [isAtomic, expandWith, expandListWith_eq_map, withOperands, operands, definition?]

/-- Beyond the depth of the calls, more depth makes no difference. -/
theorem expandWithin_succ (h : callDepth e ≤ k) : expandWithin (k + 1) e = expandWithin k e := by
  induction k generalizing e with
  | zero => exact expandWith_of_isAtomic (isAtomic_of_callDepth h)
  | succ k ih =>
    rw [expandWithin, expandWithin]
    induction e using operand_induction with
    | h e ihe =>
      have hops : e.operands.map (expandWith (expandWithin (k + 1))) =
          e.operands.map (expandWith (expandWithin k)) :=
        List.map_congr_left fun d hd => ihe d hd ((callDepth_operand hd).trans h)
      cases hn : e.definition? with
      | none =>
        cases ha : e.isAtomic with
        | true => rw [expandWith_of_isAtomic ha, expandWith_of_isAtomic ha]
        | false => rw [expandWith_node hn ha, expandWith_node hn ha, hops]
      | some f =>
        obtain ⟨f, ps, b, es, rfl, -⟩ := definition?_eq_some hn
        rw [expandWith, expandWith, expandListWith_eq_map, expandListWith_eq_map]
        simp only [operands] at hops
        rw [hops]
        exact congrArg copied (ih (callDepth_inlined_expandWith h))

theorem expandWithin_eq_atomic (h : callDepth e ≤ k) : expandWithin k e = e.atomic := by
  induction k, h using Nat.le_induction with
  | base => exact (atomic_eq_expandWithin e).symm
  | succ k hk ih => rw [expandWithin_succ hk, ih]

end Within

/-! The atomic form. -/

theorem isAtomic_atomic (e : Expr) : e.atomic.isAtomic = true := by
  rw [atomic_eq_expandWithin]
  exact isAtomic_of_callDepth (callDepth_expandWithin (Nat.le_refl _))

theorem atomic_of_isAtomic (h : e.isAtomic = true) : e.atomic = e :=
  (expandWithin_eq_atomic (callDepth_of_isAtomic h)).symm

theorem atomic_operand (h : callDepth e ≤ k + 1) (hd : d ∈ e.operands) :
    expandWith (expandWithin k) d = d.atomic :=
  expandWithin_eq_atomic (k := k + 1) ((callDepth_operand hd).trans h)

theorem atomic_node (hn : e.definition? = none) (h : e.isAtomic = false) :
    e.atomic = e.withOperands (e.operands.map atomic) := by
  have hk : callDepth e ≤ callDepth e + 1 := Nat.le_succ _
  rw [← expandWithin_eq_atomic hk, expandWithin, expandWith_node hn h]
  exact congrArg e.withOperands (List.map_congr_left fun d hd => atomic_operand hk hd)

theorem atomic_call (f : String) (ps : List Symbol) (b : Expr) (es : List Expr) :
    (call f ps b es).atomic = (substitutePairs (ps.zip (es.map atomic)) b).atomic.copied := by
  have hk : callDepth (call f ps b es) ≤ callDepth b + callDepths es + 1 := Nat.le_refl _
  have hes : es.map (expandWith (expandWithin (callDepth b + callDepths es))) = es.map atomic :=
    List.map_congr_left fun d hd => atomic_operand hk hd
  rw [← expandWithin_eq_atomic hk, expandWithin, expandWith, expandListWith_eq_map, hes]
  refine congrArg copied
    (expandWithin_eq_atomic ((callDepth_inlined_le (k := 0) (List.forall_mem_map.2 ?_)).trans ?_))
  · exact fun d _ => callDepth_of_isAtomic (isAtomic_atomic d)
  · omega

/-! What has to be expanded for an expression to be. -/

/-- To expand the second, the first has to be expanded: an operand, or the body of a call, with
expressions free of calls in place of the parameters. -/
inductive Pending : Expr → Expr → Prop where
  | operand {d e : Expr} : d ∈ e.operands → Pending d e
  | body {f : String} {ps : List Symbol} {b : Expr} {es rs : List Expr} :
      (∀ r ∈ rs, CallFree r) → Pending (substitutePairs (ps.zip rs) b) (call f ps b es)

/-- No chain of expansions is endless. -/
theorem acc_pending (e : Expr) : Acc Pending e := by
  obtain ⟨n, hn⟩ : ∃ n, callDepth e < n := ⟨_, Nat.lt_succ_self _⟩
  induction n generalizing e with
  | zero => exact absurd hn (Nat.not_lt_zero _)
  | succ n ih =>
    induction e using operand_induction with
    | h e ihe =>
      constructor
      intro d hd
      cases hd with
      | operand hd => exact ihe d hd (Nat.lt_of_le_of_lt (callDepth_operand hd) hn)
      | @body f ps b es rs hrs =>
        rw [callDepth] at hn
        refine ih _ ((Nat.lt_succ_of_le (callDepth_inlined_le (k := 0) fun r hr => ?_)).trans_le ?_)
        · exact callDepth_of_isAtomic (isAtomic_iff_callFree.2 (hrs r hr))
        · omega

/-! What is found when nodes keep what they expand to. -/

mutual

/-- Whether the expression is atomic, as is found from what its node keeps, or else by going through the
operands as far as the first that is not. -/
inductive Tests : Expr → Bool → Prop where
  | kept {e : Expr} {slot : Option Expr} : Keeps e slot → Tests e slot.isNone
  | call {f : String} {ps : List Symbol} {b : Expr} {es : List Expr} : Tests (call f ps b es) false
  | all {e : Expr} : e.definition? = none → (∀ d ∈ e.operands, Tests d true) → Tests e true
  | any {e d : Expr} {as bs : List Expr} : e.definition? = none → e.operands = as ++ d :: bs →
      (∀ a ∈ as, Tests a true) → Tests d false → Tests e false

/-- What the node of an expression keeps: nothing if that was found to be atomic, and otherwise what it
expanded to, rebuilt from the operands or as a copy of the body of the function. -/
inductive Keeps : Expr → Option Expr → Prop where
  | atomic {e : Expr} : Tests e true → Keeps e none
  | node {e : Expr} {rs : List Expr} : Tests e false → e.definition? = none →
      rs.length = e.operands.length → (∀ p ∈ e.operands.zip rs, Expands p.1 p.2) →
      Keeps e (some (e.withOperands rs))
  | call {f : String} {ps : List Symbol} {b : Expr} {es rs : List Expr} {r : Expr} :
      Tests (call f ps b es) false → rs.length = es.length → (∀ p ∈ es.zip rs, Expands p.1 p.2) →
      Expands (substitutePairs (ps.zip rs) b) r → Keeps (call f ps b es) (some r.copied)

/-- What the expression expands to: itself if it is found to be atomic, or else what its node keeps. -/
inductive Expands : Expr → Expr → Prop where
  | atomic {e : Expr} : Tests e true → Expands e e
  | kept {e : Expr} {slot : Option Expr} : Keeps e slot → Expands e (slot.getD e)

end

/-- What a node keeps that has been expanded. -/
def slot (e : Expr) : Option Expr := if e.isAtomic then none else some e.atomic

theorem map_eq_of_zip {f : Expr → Expr} (hl : rs.length = es.length)
    (h : ∀ p ∈ es.zip rs, p.2 = f p.1) : rs = es.map f := by
  have hrel : List.Forall₂ (fun d r => r = f d) es rs :=
    List.forall₂_iff_zip.2 ⟨hl.symm, fun hp => h _ hp⟩
  rw [← List.forall₂_eq_eq_eq, List.forall₂_map_right_iff]
  exact hrel.flip

/-! Whatever is found is right. -/

mutual

theorem Tests.eq {e : Expr} {t : Bool} : Tests e t → t = e.isAtomic
  | .kept h => by
    rw [h.eq, slot]
    cases e.isAtomic <;> rfl
  | .call => rfl
  | .all hn h => (isAtomic_iff.2 ⟨hn, fun d hd => (h d hd).eq.symm⟩).symm
  | .any hn he _ hd => by
    refine (Bool.eq_false_iff.2 fun ha => ?_).symm
    have := (isAtomic_iff.1 ha).2 _ (he ▸ List.mem_append_right _ List.mem_cons_self)
    exact absurd (this ▸ hd.eq) Bool.false_ne_true

theorem Keeps.eq {e : Expr} {kept : Option Expr} : Keeps e kept → kept = e.slot
  | .atomic h => by rw [slot, if_pos h.eq.symm]
  | .node ht hn hl h => by
    rw [slot, if_neg (by simp [← ht.eq]), atomic_node hn ht.eq.symm,
      map_eq_of_zip hl fun p hp => (h p hp).eq]
  | .call ht hl h hr => by
    have hrs := map_eq_of_zip hl fun p hp => (h p hp).eq
    rw [slot, if_neg (by simp [← ht.eq]), atomic_call, ← hrs, hr.eq]

theorem Expands.eq {e r : Expr} : Expands e r → r = e.atomic
  | .atomic h => (atomic_of_isAtomic h.eq.symm).symm
  | .kept h => by
    rw [h.eq, slot]
    split
    · next ha => exact (atomic_of_isAtomic ha).symm
    · rfl

end

/-! Something is found. -/

theorem tests_isAtomic (e : Expr) : Tests e e.isAtomic := by
  induction e using operand_induction with
  | h e ih =>
    cases hn : e.definition? with
    | some f =>
      obtain ⟨f, ps, b, es, rfl, -⟩ := definition?_eq_some hn
      exact .call
    | none =>
      cases hfirst : e.operands.find? (!·.isAtomic) with
      | none =>
        have hall : ∀ d ∈ e.operands, d.isAtomic = true := by simpa using hfirst
        rw [isAtomic_iff.2 ⟨hn, hall⟩]
        exact .all hn fun d hd => hall d hd ▸ ih d hd
      | some d =>
        obtain ⟨hd, as, bs, he, has⟩ := List.find?_eq_some_iff_append.1 hfirst
        have hda : d.isAtomic = false := by simpa using hd
        have hmem : d ∈ e.operands := he ▸ List.mem_append_right _ List.mem_cons_self
        rw [Bool.eq_false_iff.2 fun ha => Bool.eq_false_iff.1 hda ((isAtomic_iff.1 ha).2 d hmem)]
        refine .any hn he (fun a ha => ?_) (hda ▸ ih d hmem)
        have haa : a.isAtomic = true := by simpa using has a ha
        exact haa ▸ ih a (he ▸ List.mem_append_left _ ha)

theorem keeps_slot (h : ∀ d, Pending d e → Expands d d.atomic) : Keeps e e.slot := by
  have ht := tests_isAtomic e
  cases ha : e.isAtomic with
  | true =>
    rw [slot, if_pos ha]
    exact .atomic (ha ▸ ht)
  | false =>
    have hzip : e.operands.zip (e.operands.map atomic) = e.operands.map fun d => (d, d.atomic) := by
      simpa using List.zip_map' (f := id) (g := atomic) (l := e.operands)
    have hops : ∀ p ∈ e.operands.zip (e.operands.map atomic), Expands p.1 p.2 := by
      rw [hzip]
      exact List.forall_mem_map.2 fun d hd => h d (.operand hd)
    rw [ha] at ht
    rw [slot, if_neg (by simp [ha])]
    cases hn : e.definition? with
    | none =>
      rw [atomic_node hn ha]
      exact .node ht hn (List.length_map _) hops
    | some f =>
      obtain ⟨f, ps, b, es, rfl, -⟩ := definition?_eq_some hn
      rw [atomic_call]
      refine .call ht (List.length_map _) hops (h _ (.body ?_))
      exact List.forall_mem_map.2 fun d _ => isAtomic_iff_callFree.1 (isAtomic_atomic d)

theorem expands_atomic (e : Expr) : Expands e e.atomic := by
  induction acc_pending e with
  | intro e _ ih =>
    have hslot := Expands.kept (keeps_slot ih)
    rwa [← hslot.eq]

/-- Expansion comes to an end, whatever nodes keep from earlier expansions, and always with the atomic
form. That has no call; it is the expression itself exactly if this has none; and expanded again it
stays. Whether an expression is atomic is always found to be whether it has no call, and what a node
keeps does not change that. -/
theorem atomic_complete (e : Expr) :
    Acc Pending e ∧ (∀ r, Expands e r ↔ r = e.atomic) ∧
      CallFree e.atomic ∧ (e.atomic = e ↔ CallFree e) ∧ e.atomic.atomic = e.atomic ∧
      (∀ t, Tests e t ↔ t = e.isAtomic) ∧ (e.isAtomic = true ↔ CallFree e) ∧
      ∀ kept, Keeps e kept ↔ kept = e.slot := by
  have hfree : CallFree e.atomic := isAtomic_iff_callFree.1 (isAtomic_atomic e)
  refine ⟨acc_pending e, fun r => ⟨Expands.eq, ?_⟩, hfree, ⟨fun h => h ▸ hfree, fun h => ?_⟩,
    atomic_of_isAtomic (isAtomic_atomic e), fun t => ⟨Tests.eq, ?_⟩, isAtomic_iff_callFree,
    fun kept => ⟨Keeps.eq, ?_⟩⟩
  · rintro rfl
    exact expands_atomic e
  · exact atomic_of_isAtomic (isAtomic_iff_callFree.2 h)
  · rintro rfl
    exact tests_isAtomic e
  · rintro rfl
    exact keeps_slot fun d _ => expands_atomic d

end Symbolic.Expr
