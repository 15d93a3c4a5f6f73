import Mathlib.Algebra.Order.Ring.Rat
import Mathlib.Data.List.Sort
import Symbolic.Expr.Order
import Symbolic.Proofs.Expr.Induction

/-!
The order of expressions is a total preorder: it turns around with its sides (`order_swap`), it does
not tell apart what is equal in it (`order_congr`), and it is transitive (`order_lt_trans`); together
that is the instance `Std.TransCmp order`.

Sorting is insertion sort by that order, so a sorted list is a rearrangement of what it was made of
(`sorted_perm`), it ascends (`sorted_ascending`), and what ascends stays as it is (`sorted_eq_self`).
Lists that ascend and are rearrangements of one another up to equality in the order are equal in the
order place by place (`orderLists_eq_of_perm`).
-/

namespace Symbolic.Expr

theorem orderConst_eq_lt {a b : Rat} : orderConst a b = .lt ↔ b < a :=
  compareOfLessAndEq_eq_lt

theorem orderConst_eq_eq {a b : Rat} : orderConst a b = .eq ↔ a = b := by
  rw [orderConst, compareOfLessAndEq_eq_eq le_refl not_le, eq_comm]

theorem orderConst_swap (a b : Rat) : orderConst a b = (orderConst b a).swap := by
  unfold orderConst compareOfLessAndEq
  rcases lt_trichotomy a b with h | h | h
  · simp [h, h.not_gt, h.ne']
  · simp [h]
  · simp [h, h.not_gt, h.ne']

theorem symbolOrder_eq_eq {s t : Symbol} : s.order t = .eq ↔ s = t := by
  cases s
  cases t
  simp [Symbol.order]

/-! Expressions of different kinds are in the order of their kinds. -/

theorem order_of_rank_ne {a b : Expr} (h : a.rank ≠ b.rank) : order a b = compare a.rank b.rank := by
  cases a <;> cases b <;> first | rfl | exact absurd rfl h

theorem rank_eq_of_order_eq {a b : Expr} (h : order a b = .eq) : a.rank = b.rank := by
  by_contra hr
  rw [order_of_rank_ne hr] at h
  exact hr (Nat.compare_eq_eq.1 h)

theorem rank_le_of_order_lt {a b : Expr} (h : order a b = .lt) : a.rank ≤ b.rank := by
  by_contra hr
  rw [order_of_rank_ne (by omega)] at h
  have := Nat.compare_eq_lt.1 h
  omega

theorem order_eq_lt_of_rank_lt {a b : Expr} (h : a.rank < b.rank) : order a b = .lt := by
  rw [order_of_rank_ne (by omega)]
  exact Nat.compare_eq_lt.2 h

/-! The order turns around with its sides. -/

theorem orderLists_swap {as : List Expr} (ih : ∀ a ∈ as, ∀ b, order a b = (order b a).swap) :
    ∀ bs, orderLists as bs = (orderLists bs as).swap := by
  induction as with
  | nil => intro bs; cases bs <;> rfl
  | cons a as iha =>
    intro bs
    cases bs with
    | nil => rfl
    | cons b bs =>
      rw [orderLists, orderLists, Ordering.swap_then, ← ih a List.mem_cons_self,
        ← iha fun x hx => ih x (List.mem_cons_of_mem _ hx)]

theorem order_swap_of_rank_ne {a b : Expr} (h : a.rank ≠ b.rank) :
    order a b = (order b a).swap := by
  rw [order_of_rank_ne h, order_of_rank_ne h.symm]
  exact Std.OrientedOrd.eq_swap

theorem order_swap (x y : Expr) : order x y = (order y x).swap := by
  -- sides of different kinds are decided by their ranks
  induction x generalizing y with
  | const c =>
    cases y with
    | const d => exact orderConst_swap c d
    | _ => exact order_swap_of_rank_ne (by simp [rank])
  | var s k =>
    cases y with
    | var t l => exact Std.OrientedOrd.eq_swap
    | _ => exact order_swap_of_rank_ne (by simp [rank])
  | sum as ih =>
    cases y with
    | sum bs => exact orderLists_swap ih bs
    | _ => exact order_swap_of_rank_ne (by simp [rank])
  | product as ih =>
    cases y with
    | product bs => exact orderLists_swap ih bs
    | _ => exact order_swap_of_rank_ne (by simp [rank])
  | pow b p ihb ihp =>
    cases y with
    | pow b' p' => rw [order, order, Ordering.swap_then, ← ihb, ← ihp]
    | _ => exact order_swap_of_rank_ne (by simp [rank])
  | apply f a ih =>
    cases y with
    | apply g b =>
      rw [order, order, Ordering.swap_then, ← ih]
      exact congrArg (Ordering.then · _) Std.OrientedOrd.eq_swap
    | _ => exact order_swap_of_rank_ne (by simp [rank])
  | call f ps d as _ ih =>
    cases y with
    | call g qs d' bs =>
      rw [order, order, Ordering.swap_then, ← orderLists_swap ih]
      exact congrArg (Ordering.then · _) Std.OrientedOrd.eq_swap
    | _ => exact order_swap_of_rank_ne (by simp [rank])

/-! What is equal in the order stands in one place to all else. -/

theorem orderLists_congr {as : List Expr}
    (ih : ∀ a ∈ as, ∀ b c, order a b = .eq → order a c = order b c) :
    ∀ bs cs, orderLists as bs = .eq → orderLists as cs = orderLists bs cs := by
  induction as with
  | nil =>
    intro bs cs h
    cases bs with
    | nil => rfl
    | cons b bs => simp [orderLists] at h
  | cons a as iha =>
    intro bs cs h
    cases bs with
    | nil => simp [orderLists] at h
    | cons b bs =>
      obtain ⟨hab, has⟩ := Ordering.then_eq_eq.1 h
      cases cs with
      | nil => rfl
      | cons c cs =>
        rw [orderLists, orderLists, ih a List.mem_cons_self b c hab,
          iha (fun x hx => ih x (List.mem_cons_of_mem _ hx)) bs cs has]

theorem order_congr_of_rank_ne {x y z : Expr} (h : order x y = .eq) (hz : x.rank ≠ z.rank) :
    order x z = order y z := by
  have hr := rank_eq_of_order_eq h
  rw [order_of_rank_ne hz, order_of_rank_ne (hr ▸ hz), hr]

theorem order_congr (x y z : Expr) (h : order x y = .eq) : order x z = order y z := by
  induction x generalizing y z with
  | const c =>
    cases y with
    | const d => rw [orderConst_eq_eq.1 h]
    | _ => exact absurd (rank_eq_of_order_eq h) (by simp [rank])
  | var s k =>
    cases y with
    | var t l =>
      obtain rfl := symbolOrder_eq_eq.1 h
      cases z <;> rfl
    | _ => exact absurd (rank_eq_of_order_eq h) (by simp [rank])
  | sum as ih =>
    cases y with
    | sum bs =>
      cases z with
      | sum cs => exact orderLists_congr ih bs cs h
      | _ => exact order_congr_of_rank_ne h (by simp [rank])
    | _ => exact absurd (rank_eq_of_order_eq h) (by simp [rank])
  | product as ih =>
    cases y with
    | product bs =>
      cases z with
      | product cs => exact orderLists_congr ih bs cs h
      | _ => exact order_congr_of_rank_ne h (by simp [rank])
    | _ => exact absurd (rank_eq_of_order_eq h) (by simp [rank])
  | pow b p ihb ihp =>
    cases y with
    | pow b' p' =>
      obtain ⟨hb, hp⟩ := Ordering.then_eq_eq.1 h
      cases z with
      | pow b'' p'' => rw [order, order, ihb _ _ hb, ihp _ _ hp]
      | _ => exact order_congr_of_rank_ne h (by simp [rank])
    | _ => exact absurd (rank_eq_of_order_eq h) (by simp [rank])
  | apply f a ih =>
    cases y with
    | apply g b =>
      obtain ⟨hf, ha⟩ := Ordering.then_eq_eq.1 h
      cases z with
      | apply g' c => rw [order, order, Nat.compare_eq_eq.1 hf, ih _ _ ha]
      | _ => exact order_congr_of_rank_ne h (by simp [rank])
    | _ => exact absurd (rank_eq_of_order_eq h) (by simp [rank])
  | call f ps d as _ ih =>
    cases y with
    | call g qs d' bs =>
      obtain ⟨hf, has⟩ := Ordering.then_eq_eq.1 h
      cases z with
      | call g' qs' d'' cs =>
        rw [order, order, Std.LawfulEqOrd.eq_of_compare hf, orderLists_congr ih bs cs has]
      | _ => exact order_congr_of_rank_ne h (by simp [rank])
    | _ => exact absurd (rank_eq_of_order_eq h) (by simp [rank])

theorem order_eq_symm {x y : Expr} (h : order x y = .eq) : order y x = .eq := by
  rw [order_swap, h]
  rfl

theorem order_congr_right {x y z : Expr} (h : order y z = .eq) : order x y = order x z := by
  rw [order_swap x y, order_swap x z, order_congr y z x h]

/-! The order is transitive. -/

/-- Where one place decides before another, what is transitive at both is transitive together. -/
theorem then_lt_trans {o₁ o₂ o₃ p₁ p₂ p₃ : Ordering} (hlt : o₁ = .lt → o₂ = .lt → o₃ = .lt)
    (heq : o₁ = .eq → o₂ = o₃) (heq' : o₂ = .eq → o₁ = o₃)
    (hp : o₁ = .eq → o₂ = .eq → p₁ = .lt → p₂ = .lt → p₃ = .lt)
    (h₁ : o₁.then p₁ = .lt) (h₂ : o₂.then p₂ = .lt) : o₃.then p₃ = .lt := by
  rw [Ordering.then_eq_lt] at h₁ h₂ ⊢
  rcases h₁ with h₁ | ⟨h₁, q₁⟩ <;> rcases h₂ with h₂ | ⟨h₂, q₂⟩
  · exact .inl (hlt h₁ h₂)
  · exact .inl (heq' h₂ ▸ h₁)
  · exact .inl (heq h₁ ▸ h₂)
  · exact .inr ⟨heq h₁ ▸ h₂, hp h₁ h₂ q₁ q₂⟩

theorem orderLists_lt_trans {as : List Expr}
    (ih : ∀ a ∈ as, ∀ b c, order a b = .lt → order b c = .lt → order a c = .lt) :
    ∀ bs cs, orderLists as bs = .lt → orderLists bs cs = .lt → orderLists as cs = .lt := by
  induction as with
  | nil =>
    intro bs cs h₁ h₂
    cases cs with
    | nil => cases bs <;> simp [orderLists] at h₁ h₂
    | cons c cs => rfl
  | cons a as iha =>
    intro bs cs h₁ h₂
    cases bs with
    | nil => simp [orderLists] at h₁
    | cons b bs =>
      cases cs with
      | nil => simp [orderLists] at h₂
      | cons c cs =>
        exact then_lt_trans (ih a List.mem_cons_self b c) (fun h => (order_congr a b c h).symm)
          (fun h => order_congr_right h)
          (fun _ _ => iha (fun x hx => ih x (List.mem_cons_of_mem _ hx)) bs cs) h₁ h₂

theorem order_lt_trans_of_rank {x y z : Expr} (h₁ : order x y = .lt) (h₂ : order y z = .lt)
    (hr : ¬ (x.rank = y.rank ∧ y.rank = z.rank)) : order x z = .lt := by
  have := rank_le_of_order_lt h₁
  have := rank_le_of_order_lt h₂
  exact order_eq_lt_of_rank_lt (by omega)

theorem order_lt_trans (x y z : Expr) (h₁ : order x y = .lt) (h₂ : order y z = .lt) :
    order x z = .lt := by
  -- if the three are not of one kind, the ranks decide
  induction x generalizing y z with
  | const c =>
    cases y with
    | const d =>
      cases z with
      | const e => exact orderConst_eq_lt.2 ((orderConst_eq_lt.1 h₂).trans (orderConst_eq_lt.1 h₁))
      | _ => exact order_lt_trans_of_rank h₁ h₂ (by simp [rank])
    | _ => exact order_lt_trans_of_rank h₁ h₂ (by simp [rank])
  | var s k =>
    cases y with
    | var t l =>
      cases z with
      | var u m => exact @Std.TransCmp.lt_trans _ compare _ _ _ _ h₁ h₂
      | _ => exact order_lt_trans_of_rank h₁ h₂ (by simp [rank])
    | _ => exact order_lt_trans_of_rank h₁ h₂ (by simp [rank])
  | sum as ih =>
    cases y with
    | sum bs =>
      cases z with
      | sum cs => exact orderLists_lt_trans ih bs cs h₁ h₂
      | _ => exact order_lt_trans_of_rank h₁ h₂ (by simp [rank])
    | _ => exact order_lt_trans_of_rank h₁ h₂ (by simp [rank])
  | product as ih =>
    cases y with
    | product bs =>
      cases z with
      | product cs => exact orderLists_lt_trans ih bs cs h₁ h₂
      | _ => exact order_lt_trans_of_rank h₁ h₂ (by simp [rank])
    | _ => exact order_lt_trans_of_rank h₁ h₂ (by simp [rank])
  | pow b p ihb ihp =>
    cases y with
    | pow b' p' =>
      cases z with
      | pow b'' p'' =>
        exact then_lt_trans (ihb b' b'') (fun h => (order_congr b b' b'' h).symm)
          (fun h => order_congr_right h) (fun _ _ => ihp p' p'') h₁ h₂
      | _ => exact order_lt_trans_of_rank h₁ h₂ (by simp [rank])
    | _ => exact order_lt_trans_of_rank h₁ h₂ (by simp [rank])
  | apply f a ih =>
    cases y with
    | apply g b =>
      cases z with
      | apply g' c =>
        exact then_lt_trans Std.TransCmp.lt_trans (fun h => by rw [Nat.compare_eq_eq.1 h])
          (fun h => by rw [Nat.compare_eq_eq.1 h]) (fun _ _ => ih b c) h₁ h₂
      | _ => exact order_lt_trans_of_rank h₁ h₂ (by simp [rank])
    | _ => exact order_lt_trans_of_rank h₁ h₂ (by simp [rank])
  | call f ps d as _ ih =>
    cases y with
    | call g qs d' bs =>
      cases z with
      | call g' qs' d'' cs =>
        exact then_lt_trans Std.TransCmp.lt_trans
          (fun h => by rw [Std.LawfulEqOrd.eq_of_compare h])
          (fun h => by rw [Std.LawfulEqOrd.eq_of_compare h])
          (fun _ _ => orderLists_lt_trans ih bs cs) h₁ h₂
      | _ => exact order_lt_trans_of_rank h₁ h₂ (by simp [rank])
    | _ => exact order_lt_trans_of_rank h₁ h₂ (by simp [rank])

instance : Std.OrientedCmp order := ⟨order_swap _ _⟩

instance : Std.TransCmp order where
  isLE_trans {x y z} h₁ h₂ := by
    rcases Ordering.isLE_iff_eq_lt_or_eq_eq.1 h₁ with h₁ | h₁
    · rcases Ordering.isLE_iff_eq_lt_or_eq_eq.1 h₂ with h₂ | h₂
      · exact Ordering.isLE_iff_eq_lt_or_eq_eq.2 (.inl (order_lt_trans x y z h₁ h₂))
      · rw [← order_congr_right h₂, h₁]
        rfl
    · rw [order_congr x y z h₁]
      exact h₂

/-! Sorting. -/

def Ascending (es : List Expr) : Prop := es.Pairwise fun a b => order a b ≠ .gt

theorem order_ne_gt_iff {a b : Expr} : order a b ≠ .gt ↔ (order a b).isLE = true := by
  cases order a b <;> simp

instance : IsTrans Expr fun a b => order a b ≠ .gt where
  trans _ _ _ h₁ h₂ :=
    order_ne_gt_iff.2 (Std.TransCmp.isLE_trans (order_ne_gt_iff.1 h₁) (order_ne_gt_iff.1 h₂))

instance : Std.Total fun a b : Expr => order a b ≠ .gt where
  total a b := by
    rw [order_swap b a]
    cases order a b <;> simp

theorem insert_eq_orderedInsert (e : Expr) (es : List Expr) :
    insert e es = es.orderedInsert (fun a b => order a b ≠ .gt) e := by
  induction es with
  | nil => rfl
  | cons f fs ih =>
    rw [insert, List.orderedInsert_cons, ordering_eq_order, ih]
    by_cases h : order e f = .gt <;> simp [h]

theorem sorted_eq_insertionSort (es : List Expr) :
    sorted es = es.insertionSort fun a b => order a b ≠ .gt := by
  induction es with
  | nil => rfl
  | cons e es ih => rw [List.insertionSort_cons, ← ih, ← insert_eq_orderedInsert]; rfl

theorem sorted_perm (es : List Expr) : (sorted es).Perm es := by
  rw [sorted_eq_insertionSort]
  exact List.perm_insertionSort _ es

theorem sorted_ascending (es : List Expr) : Ascending (sorted es) := by
  rw [sorted_eq_insertionSort]
  exact List.pairwise_insertionSort _ es

theorem sorted_eq_self {es : List Expr} (h : Ascending es) : sorted es = es := by
  rw [sorted_eq_insertionSort]
  exact List.Pairwise.insertionSort_eq h

/-- Places in the order: expressions that are equal in it have one place. -/
def placeSetoid : Setoid Expr where
  r a b := order a b = .eq
  iseqv := ⟨order_refl, order_eq_symm, fun h₁ h₂ => (order_congr _ _ _ h₁).trans h₂⟩

def placeLE : Quotient placeSetoid → Quotient placeSetoid → Prop :=
  Quotient.lift₂ (fun a b => order a b ≠ .gt) fun a b a' b' (ha : order a a' = .eq)
    (hb : order b b' = .eq) => by rw [order_congr a a' b ha, order_congr_right hb]

theorem map_place_eq {as bs : List Expr} (h : List.Forall₂ (fun a b => order a b = .eq) as bs) :
    as.map (Quotient.mk placeSetoid) = bs.map (Quotient.mk placeSetoid) := by
  induction h with
  | nil => rfl
  | cons hab _ ih => rw [List.map_cons, List.map_cons, ih, Quotient.sound (s := placeSetoid) hab]

theorem orderLists_eq_of_map_place {as bs : List Expr}
    (h : as.map (Quotient.mk placeSetoid) = bs.map (Quotient.mk placeSetoid)) :
    orderLists as bs = .eq := by
  induction as generalizing bs with
  | nil =>
    cases bs with
    | nil => rfl
    | cons b bs => simp at h
  | cons a as ih =>
    cases bs with
    | nil => simp at h
    | cons b bs =>
      obtain ⟨hab, has⟩ := List.cons.inj h
      have : order a b = .eq := Quotient.exact (s := placeSetoid) hab
      rw [orderLists, this, ih has]
      rfl

theorem forall₂_of_orderLists {as bs : List Expr} (h : orderLists as bs = .eq) :
    List.Forall₂ (fun a b => order a b = .eq) as bs := by
  induction as generalizing bs with
  | nil =>
    cases bs with
    | nil => exact .nil
    | cons b bs => cases h
  | cons a as ih =>
    cases bs with
    | nil => cases h
    | cons b bs =>
      rw [orderLists, Ordering.then_eq_eq] at h
      exact .cons h.1 (ih h.2)

/-- Induction on two expressions that are equal in the order: their operands are so place by place,
and the functions of calls have one name. -/
@[elab_as_elim]
theorem order_eq_induction {motive : Expr → Expr → Prop}
    (const : ∀ c, motive (const c) (const c)) (var : ∀ s k l, motive (var s k) (var s l))
    (sum : ∀ as bs, List.Forall₂ motive as bs → motive (sum as) (sum bs))
    (product : ∀ as bs, List.Forall₂ motive as bs → motive (product as) (product bs))
    (pow : ∀ b p b' p', motive b b' → motive p p' → motive (pow b p) (pow b' p'))
    (apply : ∀ f a b, motive a b → motive (apply f a) (apply f b))
    (call : ∀ f ps qs b b' as bs, List.Forall₂ motive as bs →
      motive (call f ps b as) (call f qs b' bs))
    (a b : Expr) (h : order a b = .eq) : motive a b := by
  have hlist {as bs : List Expr} (h : orderLists as bs = .eq)
      (ih : ∀ a ∈ as, ∀ b, order a b = .eq → motive a b) : List.Forall₂ motive as bs :=
    forall₂_imp_of_mem (forall₂_of_orderLists h) fun a ha b _ => ih a ha b
  have hrank := rank_eq_of_order_eq h
  induction a generalizing b with
  | const c =>
    cases b with
    | const d => exact orderConst_eq_eq.1 h ▸ const c
    | _ => cases hrank
  | var s k =>
    cases b with
    | var t l => exact symbolOrder_eq_eq.1 h ▸ var s k l
    | _ => cases hrank
  | sum as ih =>
    cases b with
    | sum bs => exact sum as bs (hlist h fun a ha b hab => ih a ha b hab (rank_eq_of_order_eq hab))
    | _ => cases hrank
  | product as ih =>
    cases b with
    | product bs =>
      exact product as bs (hlist h fun a ha b hab => ih a ha b hab (rank_eq_of_order_eq hab))
    | _ => cases hrank
  | pow b p ihb ihp =>
    cases ‹Expr› with
    | pow b' p' =>
      obtain ⟨hb, hp⟩ := Ordering.then_eq_eq.1 h
      exact pow b p b' p' (ihb b' hb (rank_eq_of_order_eq hb)) (ihp p' hp (rank_eq_of_order_eq hp))
    | _ => cases hrank
  | apply f a ih =>
    cases b with
    | apply g b =>
      obtain ⟨hf, hab⟩ := Ordering.then_eq_eq.1 h
      obtain rfl : f = g := by cases f <;> cases g <;> first | rfl | cases hf
      exact apply f a b (ih b hab (rank_eq_of_order_eq hab))
    | _ => cases hrank
  | call f ps b as _ ih =>
    cases ‹Expr› with
    | call g qs b' bs =>
      obtain ⟨hf, has⟩ := Ordering.then_eq_eq.1 h
      obtain rfl := Std.LawfulEqOrd.eq_of_compare hf
      exact call f ps qs b b' as bs
        (hlist has fun a ha c hac => ih a ha c hac (rank_eq_of_order_eq hac))
    | _ => cases hrank

/-- Ascending lists that are rearrangements of one another up to the order are equal in it. -/
theorem orderLists_eq_of_perm {as bs cs : List Expr} (ha : Ascending as) (hb : Ascending bs)
    (hp : cs.Perm bs) (hc : List.Forall₂ (fun a c => order a c = .eq) as cs) :
    orderLists as bs = .eq := by
  -- as lists of places the two are sorted rearrangements of one another, so they are equal
  apply orderLists_eq_of_map_place
  have hperm : (as.map (Quotient.mk placeSetoid)).Perm (bs.map (Quotient.mk placeSetoid)) := by
    rw [map_place_eq hc]
    exact hp.map _
  have hpa : (as.map (Quotient.mk placeSetoid)).Pairwise placeLE := List.pairwise_map.2 ha
  refine List.Perm.eq_of_pairwise ?_ hpa (List.pairwise_map.2 hb) hperm
  intro p q _ _
  refine Quotient.inductionOn₂ p q fun a b (h₁ : order a b ≠ .gt) (h₂ : order b a ≠ .gt) => ?_
  refine Quotient.sound (s := placeSetoid) (show order a b = .eq from ?_)
  rw [order_swap b a] at h₂
  cases h : order a b <;> simp_all

end Symbolic.Expr
