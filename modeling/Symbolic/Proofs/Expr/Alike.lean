import Symbolic.Expr.Fingerprint
import Symbolic.Proofs.Expr.Induction
import Symbolic.Proofs.Expr.Rearranged

/-!
Equality up to the order of operands is an equivalence. The operands of sums and products are paired
off greedily, each with the first that is left; that finds partners for all of them whenever there
are any, because what is equal to one of two equal expressions is equal to the other
(`pairsOff_iff`).

Symmetry and transitivity of a sum rest on both for its operands, so they are proved together: an
expression is `Regular` if whatever it equals can stand for it.
-/

namespace Symbolic

namespace Expr

/-- Equal up to the order of operands. -/
def Alike (a b : Expr) : Prop := alike a b = true

/-- What is equal to the expression can stand for it. -/
def Regular (a : Expr) : Prop := ∀ b, Alike a b → Alike b a ∧ ∀ c, alike b c = alike a c

theorem Regular.of_alike {a b : Expr} (h : Regular a) (hab : Alike a b) : Regular b := by
  obtain ⟨hba, hb⟩ := h b hab
  intro c hbc
  obtain ⟨-, hc⟩ := h c ((hb c).symm.trans hbc)
  exact ⟨(hc b).trans hab, fun d => (hc d).trans (hb d).symm⟩

theorem exists_removeFirst {α : Type} {p : α → Bool} {xs : List α} {x : α} (hx : x ∈ xs)
    (hp : p x = true) : ∃ rest, removeFirst p xs = some rest := by
  induction xs with
  | nil => cases hx
  | cons y ys ih =>
    rw [removeFirst]
    by_cases hy : p y = true
    · exact ⟨ys, if_pos hy⟩
    · rcases List.mem_cons.1 hx with rfl | hx
      · exact absurd hp hy
      · obtain ⟨rest, hr⟩ := ih hx
        exact ⟨y :: rest, by rw [if_neg hy, hr]; rfl⟩

theorem pairsOff_of_rearranged {as bs : List Expr} (has : ∀ a ∈ as, Regular a)
    (h : Rearranged Alike as bs) : pairsOff as bs = true := by
  induction as generalizing bs with
  | nil => rfl
  | cons a as ih =>
    obtain ⟨ha, has⟩ := List.forall_mem_cons.1 has
    obtain ⟨us, b, vs, rfl, hab, h⟩ := Rearranged.cons_left.1 h
    obtain ⟨rest, hrest⟩ := exists_removeFirst (p := fun b => alike a b)
      (List.mem_append_right us List.mem_cons_self) hab
    rw [pairsOff, hrest]
    refine ih has ?_
    -- the first operand that is equal to `a` is taken in place of `b`
    obtain ⟨us', b', vs', hab', heq, rfl⟩ := exists_of_removeFirst hrest
    have h : Rearranged Alike (a :: as) (us' ++ b' :: vs') :=
      heq ▸ Rearranged.cons_left.2 ⟨us, b, vs, rfl, hab, h⟩
    refine h.of_cons fun p hp c hac hpb' => ?_
    exact ((has p hp b' hpb').2 c).symm.trans (((ha b' hab').2 c).trans hac)

/-- Operands are paired off exactly if they are a rearrangement of each other. -/
theorem pairsOff_iff {as bs : List Expr} (has : ∀ a ∈ as, Regular a) :
    (as.length == bs.length && pairsOff as bs) = true ↔ Rearranged Alike as bs := by
  rw [Bool.and_eq_true, beq_iff_eq]
  constructor
  · rintro ⟨hl, h⟩
    obtain ⟨cs, hp, hcs⟩ := exists_perm_of_pairsOff hl h
    exact ⟨cs, hcs, hp⟩
  · exact fun h => ⟨h.length_eq, pairsOff_of_rearranged has h⟩

theorem allAlike_iff {as bs : List Expr} : allAlike as bs = true ↔ List.Forall₂ Alike as bs := by
  constructor
  · exact forall₂_of_allAlike
  · intro h
    induction h with
    | nil => rfl
    | cons hab _ ih => rw [allAlike, ih, hab]; rfl

theorem rearranged_congr {as bs cs : List Expr} (has : ∀ a ∈ as, Regular a)
    (h : Rearranged Alike as bs) : Rearranged Alike bs cs ↔ Rearranged Alike as cs := by
  constructor
  · intro h'
    refine (h.trans h').imp ?_
    rintro a ha c - ⟨b, -, hab, hbc⟩
    exact ((has a ha b hab).2 c).symm.trans hbc
  · intro h'
    refine (h.symm.trans h').imp ?_
    rintro b - c - ⟨a, ha, hab, hac⟩
    exact ((has a ha b hab).2 c).trans hac

theorem forall₂_congr {as bs cs : List Expr} (has : ∀ a ∈ as, Regular a)
    (h : List.Forall₂ Alike as bs) : List.Forall₂ Alike bs cs ↔ List.Forall₂ Alike as cs := by
  induction h generalizing cs with
  | nil => rfl
  | cons hab _ ih =>
    obtain ⟨ha, has⟩ := List.forall_mem_cons.1 has
    cases cs with
    | nil => simp
    | cons c cs => rw [List.forall₂_cons, List.forall₂_cons, ih has, Alike, Alike, (ha _ hab).2]

theorem pairsOff_congr {as bs : List Expr} (has : ∀ a ∈ as, Regular a)
    (h : (as.length == bs.length && pairsOff as bs) = true) :
    (bs.length == as.length && pairsOff bs as) = true ∧
      ∀ cs, (bs.length == cs.length && pairsOff bs cs) =
        (as.length == cs.length && pairsOff as cs) := by
  have h := (pairsOff_iff has).1 h
  have hbs : ∀ b ∈ bs, Regular b := by
    intro b hb
    obtain ⟨a, ha, hab⟩ := h.exists_right b hb
    exact (has a ha).of_alike hab
  refine ⟨(pairsOff_iff hbs).2 ?_, fun cs => ?_⟩
  · exact (rearranged_congr has h).2 (.of_perm (fun a _ => alike_refl a) (.refl _))
  · rw [Bool.eq_iff_iff, pairsOff_iff has, pairsOff_iff hbs]
    exact rearranged_congr has h

/-- Every expression is regular: equality up to the order of operands is an equivalence. -/
theorem regular (a : Expr) : Regular a := by
  induction a with
  | const c =>
    intro b h
    cases b <;> simp [Alike, alike] at h
    exact h ▸ ⟨alike_refl _, fun _ => rfl⟩
  | var s k =>
    intro b h
    cases b <;> simp [Alike, alike] at h
    refine h ▸ ⟨by simp [Alike, alike], fun c => ?_⟩
    cases c <;> simp [alike]
  | sum as ih =>
    intro b h
    cases b <;> simp only [Alike, alike, Bool.false_eq_true] at h
    obtain ⟨hs, hc⟩ := pairsOff_congr ih h
    refine ⟨hs, fun c => ?_⟩
    cases c <;> simp only [alike, hc]
  | product as ih =>
    intro b h
    cases b <;> simp only [Alike, alike, Bool.false_eq_true] at h
    obtain ⟨hs, hc⟩ := pairsOff_congr ih h
    refine ⟨hs, fun c => ?_⟩
    cases c <;> simp only [alike, hc]
  | pow b p ihb ihp =>
    intro e h
    cases e <;> simp only [Alike, alike, Bool.false_eq_true, Bool.and_eq_true] at h
    obtain ⟨hb, hb'⟩ := ihb _ h.1
    obtain ⟨hp, hp'⟩ := ihp _ h.2
    refine ⟨?_, fun c => ?_⟩
    · rw [Alike, alike, hb, hp]
      rfl
    · cases c <;> simp only [alike, hb', hp']
  | apply f a ih =>
    intro b h
    cases b <;> simp only [Alike, alike, Bool.false_eq_true, Bool.and_eq_true, beq_iff_eq] at h
    obtain ⟨rfl, h⟩ := h
    obtain ⟨ha, ha'⟩ := ih _ h
    refine ⟨?_, fun c => ?_⟩
    · rw [Alike, alike, ha, beq_self_eq_true]
      rfl
    · cases c <;> simp only [alike, ha']
  | call f ps b as ihb ih =>
    intro e h
    cases e <;> simp only [Alike, alike, Bool.false_eq_true, Bool.and_eq_true, beq_iff_eq] at h
    obtain ⟨⟨⟨rfl, rfl⟩, hb⟩, has⟩ := h
    obtain ⟨hb, hb'⟩ := ihb _ hb
    have has := allAlike_iff.1 has
    refine ⟨?_, fun c => ?_⟩
    · have hsymm := allAlike_iff.2 ((forall₂_congr ih has).2
        (List.forall₂_same.2 fun a _ => alike_refl a))
      rw [Alike, alike, hb, hsymm, beq_self_eq_true, beq_self_eq_true]
      rfl
    · cases c with
      | call g qs b'' cs =>
        rw [alike, alike, hb', Bool.eq_iff_iff.2 (allAlike_iff.trans ((forall₂_congr ih has).trans
          allAlike_iff.symm))]
      | _ => rfl

namespace Alike

variable {a b c : Expr}

theorem refl (a : Expr) : Alike a a := alike_refl a

theorem symm (h : Alike a b) : Alike b a := (regular a b h).1

theorem trans (h : Alike a b) (h' : Alike b c) : Alike a c :=
  ((regular a b h).2 c).symm.trans h'

instance : Trans Alike Alike Alike := ⟨trans⟩

theorem congr {a' b' : Expr} (ha : Alike a a') (hb : Alike b b') : Alike a b ↔ Alike a' b' :=
  ⟨fun h => (ha.symm.trans h).trans hb, fun h => (ha.trans h).trans hb.symm⟩

theorem copied (h : Alike a b) : Alike a.copied b.copied :=
  (trans (alike_copied a) h).trans (symm (alike_copied b))

end Alike

theorem same_iff {a b : Expr} : same a b = true ↔ Alike a b := by rw [same_eq_alike, Alike]

/-! Nodes are equal if what they are made of is. -/

theorem alike_sum {as bs : List Expr} : Alike (sum as) (sum bs) ↔ Rearranged Alike as bs :=
  pairsOff_iff fun a _ => regular a

theorem alike_product {as bs : List Expr} :
    Alike (product as) (product bs) ↔ Rearranged Alike as bs :=
  pairsOff_iff fun a _ => regular a

theorem alike_pow {b p b' p' : Expr} :
    Alike (pow b p) (pow b' p') ↔ Alike b b' ∧ Alike p p' := by
  rw [Alike, alike, Bool.and_eq_true, Alike, Alike]

theorem alike_apply {f g : Primitive} {a b : Expr} :
    Alike (apply f a) (apply g b) ↔ f = g ∧ Alike a b := by
  rw [Alike, alike, Bool.and_eq_true, beq_iff_eq, Alike]

theorem alike_call {f g : String} {ps qs : List Symbol} {b b' : Expr} {as bs : List Expr} :
    Alike (call f ps b as) (call g qs b' bs) ↔
      f = g ∧ ps = qs ∧ Alike b b' ∧ List.Forall₂ Alike as bs := by
  rw [Alike, alike, Bool.and_eq_true, Bool.and_eq_true, Bool.and_eq_true, beq_iff_eq, beq_iff_eq,
    allAlike_iff, and_assoc, and_assoc, Alike]

/-! What is equal to a node is a node of its kind. -/

namespace Alike

variable {e : Expr}

theorem eq_const {c : Rat} (h : Alike (const c) e) : e = const c := by
  cases e <;> simp [Alike, alike] at h
  rw [h]

theorem eq_var {s : Symbol} {k : Site} (h : Alike (var s k) e) : ∃ l, e = var s l := by
  cases e <;> simp [Alike, alike] at h
  exact ⟨_, by rw [h]⟩

theorem eq_sum {as : List Expr} (h : Alike (sum as) e) :
    ∃ bs, e = sum bs ∧ Rearranged Alike as bs := by
  cases e with
  | sum bs => exact ⟨_, rfl, alike_sum.1 h⟩
  | _ => cases h

theorem eq_product {as : List Expr} (h : Alike (product as) e) :
    ∃ bs, e = product bs ∧ Rearranged Alike as bs := by
  cases e with
  | product bs => exact ⟨_, rfl, alike_product.1 h⟩
  | _ => cases h

theorem eq_pow {b p : Expr} (h : Alike (pow b p) e) :
    ∃ b' p', e = pow b' p' ∧ Alike b b' ∧ Alike p p' := by
  cases e with
  | pow b' p' => exact ⟨_, _, rfl, alike_pow.1 h⟩
  | _ => cases h

theorem eq_apply {f : Primitive} {a : Expr} (h : Alike (apply f a) e) :
    ∃ b, e = apply f b ∧ Alike a b := by
  cases e with
  | apply g b =>
    obtain ⟨rfl, hab⟩ := alike_apply.1 h
    exact ⟨_, rfl, hab⟩
  | _ => cases h

theorem eq_call {f : String} {ps : List Symbol} {b : Expr} {as : List Expr}
    (h : Alike (call f ps b as) e) :
    ∃ b' bs, e = call f ps b' bs ∧ Alike b b' ∧ List.Forall₂ Alike as bs := by
  cases e with
  | call g qs b' bs =>
    obtain ⟨rfl, rfl, hab⟩ := alike_call.1 h
    exact ⟨_, _, rfl, hab⟩
  | _ => cases h

/-- The operands of equal expressions are equal, up to their order. -/
theorem operands {a b : Expr} (h : Alike a b) : Rearranged Alike a.operands b.operands := by
  cases a with
  | const c =>
    obtain rfl := h.eq_const
    exact .nil
  | var s k =>
    obtain ⟨l, rfl⟩ := h.eq_var
    exact .nil
  | sum as =>
    obtain ⟨bs, rfl, hbs⟩ := h.eq_sum
    exact hbs
  | product as =>
    obtain ⟨bs, rfl, hbs⟩ := h.eq_product
    exact hbs
  | pow x p =>
    obtain ⟨x', p', rfl, hx, hp⟩ := h.eq_pow
    exact .of_forall₂ (.cons hx (.cons hp .nil))
  | apply f a =>
    obtain ⟨b, rfl, hab⟩ := h.eq_apply
    exact .singleton hab
  | call f ps b as =>
    obtain ⟨b', bs, rfl, -, has⟩ := h.eq_call
    exact .of_forall₂ has

end Alike

end Expr

/-! Tables do not tell equal expressions apart. -/

theorem Table.get?_empty {α : Type} (e : Expr) : (empty : Table α).get? e = none := by
  rw [get?, empty, Buckets.find?_empty]
  rfl

/-- What is in a table after one more entry: the entry, or what was there before. -/
theorem Table.get?_insert {α : Type} (t : Table α) (e : Expr) (x : α) (d : Expr) :
    (t.insert e x).get? d = if d.alike e then some x else t.get? d := by
  rw [get?, insert, Buckets.find?_push, Expr.same_eq_alike]
  by_cases h : d.alike e = true
  · simp [h, Expr.fingerprint_eq_of_alike d e h]
  · simp [h, get?]

theorem Table.get?_alike {α : Type} (t : Table α) {d e : Expr} (h : Expr.Alike d e) :
    t.get? d = t.get? e := by
  have hsame : d.same = e.same := by
    funext x
    rw [Bool.eq_iff_iff, Expr.same_iff, Expr.same_iff]
    exact ⟨h.symm.trans, h.trans⟩
  rw [get?, get?, Expr.fingerprint_eq_of_alike d e h, hsame]

end Symbolic
