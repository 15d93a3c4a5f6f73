import Symbolic.Expr.Hashed
import Symbolic.Proofs.Expr.Alike

/-!
What equality of expressions is: two trees are equal if they are one tree up to the order of operands
in sums and products, at every level and through the bodies of called functions (`Reordered`).

Equal expressions have equal hashes (`of_eq_of_alike`), so nothing is lost by looking at hashes
first. In a node, each operand takes the first equal one from the shelf of its hash. The invariant is
that the shelves hold those operands that are left (`Holds`); taking any equal one is as good as
taking another, as equality is transitive, so all operands find a partner whenever they can
(`claim_iff`).
-/

namespace Symbolic

namespace Expr

/-- One tree up to the order of operands in sums and products. Calls agree in name, parameters and
body of the function, and in their arguments, place by place. -/
inductive Reordered : Expr → Expr → Prop where
  | const (c : Rat) : Reordered (const c) (const c)
  | var (s : Symbol) (k l : Site) : Reordered (var s k) (var s l)
  | sum {as bs cs : List Expr} : List.Forall₂ Reordered as cs → cs.Perm bs →
      Reordered (sum as) (sum bs)
  | product {as bs cs : List Expr} : List.Forall₂ Reordered as cs → cs.Perm bs →
      Reordered (product as) (product bs)
  | pow {b p b' p' : Expr} : Reordered b b' → Reordered p p' → Reordered (pow b p) (pow b' p')
  | apply {f : Primitive} {a b : Expr} : Reordered a b → Reordered (apply f a) (apply f b)
  | call {f : String} {ps : List Symbol} {b b' : Expr} {as bs : List Expr} : Reordered b b' →
      List.Forall₂ Reordered as bs → Reordered (call f ps b as) (call f ps b' bs)

theorem Reordered.alike {a b : Expr} (h : Reordered a b) : Alike a b := by
  have hall {as cs : List Expr} (ih : ∀ a ∈ as, ∀ {b}, Reordered a b → Alike a b)
      (h : List.Forall₂ Reordered as cs) : List.Forall₂ Alike as cs :=
    forall₂_imp_of_mem h fun a ha _ _ hab => ih a ha hab
  induction a generalizing b with
  | const c =>
    cases h
    exact .refl _
  | var s k =>
    cases h
    rw [Alike, Expr.alike, beq_self_eq_true]
  | sum as ih =>
    cases h with
    | sum has hp => exact alike_sum.2 ⟨_, hall ih has, hp⟩
  | product as ih =>
    cases h with
    | product has hp => exact alike_product.2 ⟨_, hall ih has, hp⟩
  | pow b p ihb ihp =>
    cases h with
    | pow hb hp => exact alike_pow.2 ⟨ihb hb, ihp hp⟩
  | apply f e ih =>
    cases h with
    | apply he => exact alike_apply.2 ⟨rfl, ih he⟩
  | call f ps b as ihb ih =>
    cases h with
    | call hb has => exact alike_call.2 ⟨rfl, rfl, ihb hb, hall ih has⟩

theorem reordered_iff {a b : Expr} : Reordered a b ↔ Alike a b := by
  refine ⟨Reordered.alike, alike_induction .const .var ?sum ?product ?pow ?apply ?call a b⟩
  case sum => exact fun _ _ _ hp h => .sum h hp
  case product => exact fun _ _ _ hp h => .product h hp
  case pow => exact fun _ _ _ _ hb hp => .pow hb hp
  case apply => exact fun _ _ _ h => .apply h
  case call => exact fun _ _ _ _ _ _ hb h => .call hb h

theorem rearranged_reordered_iff {as bs : List Expr} :
    Rearranged Reordered as bs ↔ Rearranged Alike as bs :=
  ⟨fun h => h.imp fun _ _ _ _ hab => reordered_iff.1 hab,
    fun h => h.imp fun _ _ _ _ hab => reordered_iff.2 hab⟩

end Expr

theorem perm_swapRemove {α : Type} {xs : List α} {i : Nat} (hi : i < xs.length) :
    xs.Perm (xs[i] :: swapRemove xs i) := by
  obtain ⟨ys, y, rfl⟩ : ∃ ys y, xs = ys ++ [y] :=
    ⟨_, _, (List.dropLast_append_getLast (List.ne_nil_of_length_pos (by omega))).symm⟩
  rw [swapRemove, List.getLast?_concat]
  rw [List.length_append, List.length_singleton] at hi
  by_cases hlast : i = ys.length
  · subst hlast
    simp only [List.getElem_concat_length, List.set_append_right _ _ (Nat.le_refl _), Nat.sub_self,
      List.set_cons_zero, List.dropLast_concat]
    exact List.perm_append_singleton y ys
  · have hlt : i < ys.length := by omega
    simp only [List.getElem_append_left hlt, List.set_append_left _ _ hlt, List.dropLast_concat]
    calc (ys ++ [y]).Perm (y :: ys) := List.perm_append_singleton y ys
      _ |>.Perm (y :: ys[i] :: ys.eraseIdx i) := (List.getElem_cons_eraseIdx_perm hlt).symm.cons y
      _ |>.Perm (ys[i] :: y :: ys.eraseIdx i) := .swap _ _ _
      _ |>.Perm (ys[i] :: ys.set i y) := (List.set_perm_cons_eraseIdx hlt y).symm.cons _

namespace Hashing

open Symbolic.Expr

variable (h : Hashing)

/-! Equal expressions have equal hashes. -/

theorem total_perm {as bs : List Expr} (hp : as.Perm bs) (seed : UInt64) :
    h.total seed as = h.total seed bs := by
  induction hp generalizing seed with
  | nil => rfl
  | cons a _ ih => rw [total, total, ih]
  | swap a b es =>
    simp only [total]
    congr 1
    ac_rfl
  | trans _ _ ih ih' => rw [ih, ih']

theorem total_congr {as bs : List Expr} (hab : List.Forall₂ (fun a b => h.of a = h.of b) as bs)
    (seed : UInt64) : h.total seed as = h.total seed bs := by
  induction hab generalizing seed with
  | nil => rfl
  | cons hab _ ih => rw [total, total, hab, ih]

theorem named_congr {as bs : List Expr} (hab : List.Forall₂ (fun a b => h.of a = h.of b) as bs)
    (ps : List Symbol) (s : h.State) : h.named ps as s = h.named ps bs s := by
  induction hab generalizing ps s with
  | nil => rfl
  | cons hab _ ih =>
    cases ps with
    | nil => simp only [named]
    | cons p ps => simp only [named, hab, ih]

theorem of_eq_of_alike {a b : Expr} (hab : Alike a b) : h.of a = h.of b := by
  refine alike_induction (motive := fun a b => h.of a = h.of b) ?const ?var ?sum ?product ?pow
    ?apply ?call a b hab
  case const => exact fun _ => rfl
  case var => exact fun _ _ _ => by rw [of, of]
  case sum => exact fun as bs cs hp hc => by rw [of, of, h.total_congr hc, h.total_perm hp]
  case product => exact fun as bs cs hp hc => by rw [of, of, h.total_congr hc, h.total_perm hp]
  case pow => exact fun b p b' p' hb hp => by rw [of, of, hb, hp]
  case apply => exact fun f a b he => by rw [of, of, he]
  case call => exact fun f ps b b' as bs _ hc => by rw [of, of, h.named_congr hc]

/-! Operands are paired off. -/

/-- The shelves hold the given expressions, in whatever order. -/
def Holds (t : Shelves) (es : List Expr) : Prop :=
  ∀ k, (t.getD k []).Perm (es.filter (h.of · == k))

theorem Holds.shelve {h : Hashing} {t : Shelves} {es : List Expr} (ht : h.Holds t es) (e : Expr) :
    h.Holds (h.shelve t e) (es ++ [e]) := by
  intro k
  rw [Hashing.shelve, Std.TreeMap.getD_insert, List.filter_append]
  split
  · next hk =>
    obtain rfl := Std.LawfulEqOrd.eq_of_compare hk
    simpa using (ht (h.of e)).append_right [e]
  · next hk =>
    have hne : (h.of e == k) = false :=
      beq_eq_false_iff_ne.2 fun he => hk (he ▸ Std.ReflCmp.compare_self)
    simpa [hne] using ht k

theorem holds_shelves (es : List Expr) : h.Holds (h.shelves es) es := by
  have hfold : ∀ (es ds : List Expr) (t : Shelves), h.Holds t ds →
      h.Holds (es.foldl h.shelve t) (ds ++ es) := by
    intro es
    induction es with
    | nil => exact fun ds t ht => by simpa using ht
    | cons e es ih =>
      intro ds t ht
      rw [List.foldl_cons, List.append_cons]
      exact ih _ _ (ht.shelve e)
  exact hfold es [] {} fun k => by simp

theorem Holds.take {h : Hashing} {t : Shelves} {b : Expr} {es bs : List Expr}
    (ht : h.Holds t (b :: es)) (hb : (b :: bs).Perm (t.getD (h.of b) [])) :
    h.Holds (t.insert (h.of b) bs) es := by
  intro k
  have hk := ht k
  rw [Std.TreeMap.getD_insert]
  split
  · next he =>
    obtain rfl := Std.LawfulEqOrd.eq_of_compare he
    rw [List.filter_cons_of_pos (by simp)] at hk
    exact (hb.trans hk).cons_inv
  · next he =>
    have hne : (h.of b == k) = false :=
      beq_eq_false_iff_ne.2 fun hbk => he (hbk ▸ Std.ReflCmp.compare_self)
    simpa [hne] using hk

/-- The operands find partners on the shelves exactly if there is one for each. -/
theorem claim_iff {as : List Expr} (ih : ∀ a ∈ as, ∀ b, h.agree a b = alike a b) {t : Shelves}
    {bs : List Expr} (ht : h.Holds t bs) (hl : as.length = bs.length) :
    h.claim as t = true ↔ Rearranged Alike as bs := by
  induction as generalizing t bs with
  | nil =>
    obtain rfl := List.eq_nil_of_length_eq_zero hl.symm
    simp [claim, Rearranged.nil]
  | cons a as ihs =>
    obtain ⟨iha, ih⟩ := List.forall_mem_cons.1 ih
    -- an equal operand would be on the shelf of the hash of `a`
    have hshelf {b : Expr} (hb : b ∈ bs) (hab : Alike a b) : b ∈ t.getD (h.of a) [] :=
      (ht (h.of a)).mem_iff.2 (List.mem_filter.2 ⟨hb, by rw [h.of_eq_of_alike hab]; simp⟩)
    have htest (b : Expr) : (h.of a == h.of b && h.agree a b) = true ↔ Alike a b := by
      rw [iha b, Bool.and_eq_true, beq_iff_eq]
      exact ⟨And.right, fun hab => ⟨h.of_eq_of_alike hab, hab⟩⟩
    have hget : t.getD (h.of a) [] = (t.get? (h.of a)).getD [] := by
      rw [Std.TreeMap.getD_eq_getD_getElem?]
      rfl
    rw [claim]
    split
    · next hnone =>
      refine iff_of_false Bool.false_ne_true fun hr => ?_
      obtain ⟨b, hb, hab⟩ := hr.exists_left a List.mem_cons_self
      have := hshelf hb hab
      rw [hget, hnone] at this
      cases this
    · next es hsome =>
      rw [hsome, Option.getD_some] at hget
      split
      · next hnone =>
        refine iff_of_false Bool.false_ne_true fun hr => ?_
        obtain ⟨b, hb, hab⟩ := hr.exists_left a List.mem_cons_self
        have hfalse := List.findIdx?_eq_none_iff.1 hnone b (hget ▸ hshelf hb hab)
        rw [(htest b).2 hab] at hfalse
        cases hfalse
      · next i hi =>
        obtain ⟨hlt, htrue, -⟩ := List.findIdx?_eq_some_iff_getElem.1 hi
        have hab := (htest _).1 htrue
        have hof := h.of_eq_of_alike hab
        have hmem : es[i] ∈ bs := by
          have hes : es[i] ∈ t.getD (h.of a) [] := by
            rw [hget]
            exact List.getElem_mem hlt
          exact List.mem_of_mem_filter ((ht (h.of a)).mem_iff.1 hes)
        obtain ⟨us, vs, hbs⟩ := List.append_of_mem hmem
        have hperm : bs.Perm (es[i] :: (us ++ vs)) :=
          (List.Perm.of_eq hbs).trans List.perm_middle
        have hrest : h.Holds (t.insert (h.of a) (swapRemove es i)) (us ++ vs) := by
          rw [hof]
          refine Holds.take (fun k => (ht k).trans (hperm.filter _)) ?_
          rw [← hof, hget]
          exact (perm_swapRemove hlt).symm
        have hlen := hperm.length_eq
        rw [ihs ih hrest (by simp only [List.length_cons] at hl hlen; omega)]
        constructor
        · exact fun hr => (Rearranged.cons hab hr).perm_right hperm.symm
        · intro hr
          -- whatever else was the partner of `a` is equal to what is taken in its place
          rw [hbs] at hr
          refine hr.of_cons fun c _ d had hce => ?_
          exact hce.trans (hab.symm.trans had)

theorem agreeAll_eq {as : List Expr} (ih : ∀ a ∈ as, ∀ b, h.agree a b = alike a b)
    (bs : List Expr) : (as.length == bs.length && h.agreeAll as bs) = allAlike as bs := by
  induction as generalizing bs with
  | nil => cases bs <;> simp [agreeAll, allAlike]
  | cons a as ihs =>
    obtain ⟨iha, ih⟩ := List.forall_mem_cons.1 ih
    cases bs with
    | nil => simp [allAlike]
    | cons b bs =>
      have hof : (h.of a == h.of b && alike a b) = alike a b := by
        rw [Bool.and_eq_right_iff_imp]
        exact fun hab => beq_iff_eq.2 (h.of_eq_of_alike hab)
      have hlen : ((a :: as).length == (b :: bs).length) = (as.length == bs.length) := by simp
      rw [agreeAll, allAlike, ← ihs ih bs, iha, hof, hlen, Bool.and_left_comm]

theorem pairs_iff {as bs : List Expr} (ih : ∀ a ∈ as, ∀ b, h.agree a b = alike a b) :
    h.pairs as bs = true ↔ Rearranged Alike as bs := by
  rw [pairs, Bool.and_eq_true, beq_iff_eq]
  constructor
  · exact fun ⟨hl, hc⟩ => (h.claim_iff ih (h.holds_shelves bs) hl).1 hc
  · exact fun hr => ⟨hr.length_eq, (h.claim_iff ih (h.holds_shelves bs) hr.length_eq).2 hr⟩

/-- Whatever the hashes are, they do not change the answer. -/
theorem agree_eq_alike (a : Expr) : ∀ b, h.agree a b = alike a b := by
  have hnode {a : Expr} (ih : ∀ b, h.agree a b = alike a b) (b : Expr) :
      (h.of a == h.of b && h.agree a b) = alike a b := by
    rw [ih, Bool.and_eq_right_iff_imp]
    exact fun hab => beq_iff_eq.2 (h.of_eq_of_alike hab)
  have hpairs {as : List Expr} (ih : ∀ a ∈ as, ∀ b, h.agree a b = alike a b) (bs : List Expr) :
      h.pairs as bs = (as.length == bs.length && pairsOff as bs) := by
    rw [Bool.eq_iff_iff, h.pairs_iff ih, pairsOff_iff fun a _ => regular a]
  induction a with
  | const c => intro b; cases b <;> rfl
  | var s k => intro b; cases b <;> rfl
  | sum as ih =>
    intro b
    cases b with
    | sum bs => exact hpairs ih bs
    | _ => rfl
  | product as ih =>
    intro b
    cases b with
    | product bs => exact hpairs ih bs
    | _ => rfl
  | pow b p ihb ihp =>
    intro e
    cases e with
    | pow b' p' => rw [agree, alike, hnode ihb, hnode ihp]
    | _ => rfl
  | apply f a ih =>
    intro e
    cases e with
    | apply g b => rw [agree, alike, hnode ih]
    | _ => rfl
  | call f ps b as ihb ih =>
    intro e
    cases e with
    | call g qs b' bs => rw [agree, alike, hnode ihb, Bool.and_assoc, h.agreeAll_eq ih]
    | _ => rfl

end Hashing

namespace Expr

/-- Equality is that of trees up to the order of operands, and so an equivalence. Operands are paired
off whenever they are a rearrangement of each other, whether they are looked for one by one or on the
shelves of their hashes; however hashes are made, equal expressions have the same and going by
hashes gives the same answers. -/
theorem same_iff_reordered (h : Hashing) :
    (∀ a b : Expr, a.same b = true ↔ Reordered a b) ∧
      Equivalence (fun a b : Expr => a.same b = true) ∧
      (∀ as bs, (as.length == bs.length && pairsOff as bs) = true ↔ Rearranged Reordered as bs) ∧
      (∀ as bs, h.pairs as bs = true ↔ Rearranged Reordered as bs) ∧
      (∀ a b, Reordered a b → h.of a = h.of b) ∧ ∀ a b, h.equal a b = a.same b := by
  refine ⟨fun a b => same_iff.trans reordered_iff.symm, ⟨fun a => ?_, fun h => ?_, fun h h' => ?_⟩,
    fun as bs => ?_, fun as bs => ?_, fun a b hab => h.of_eq_of_alike hab.alike, fun a b => ?_⟩
  · exact same_iff.2 (.refl a)
  · exact same_iff.2 (same_iff.1 h).symm
  · exact same_iff.2 ((same_iff.1 h).trans (same_iff.1 h'))
  · exact (pairsOff_iff fun a _ => regular a).trans rearranged_reordered_iff.symm
  · exact (h.pairs_iff fun a _ => h.agree_eq_alike a).trans rearranged_reordered_iff.symm
  · rw [Hashing.equal, h.agree_eq_alike, same_eq_alike, Bool.and_eq_right_iff_imp]
    exact fun hab => beq_iff_eq.2 (h.of_eq_of_alike hab)

end Expr

end Symbolic
