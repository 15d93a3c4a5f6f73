import Symbolic.Proofs.Canonical.Fraction

/-!
Expressions that tie in the order. They are of one kind, their operands tie place by place, and they
are printed alike, but for a term that is subtracted: its negative is printed, which is built anew.
Where ties survive that (`Printable`), what ties has the same text (`Printable.text_eq`).
-/

namespace Symbolic.Expr

def Ties (a b : Expr) : Prop := order a b = .eq

variable {a b : Expr} {as bs fs gs : List Expr}

/-! What expressions that tie have in common. -/

theorem Ties.isConst_eq (h : Ties a b) : a.isConst = b.isConst := by
  have hrank := rank_eq_of_order_eq h
  cases a <;> cases b <;> first | rfl | cases hrank

/-- The order does not see where a variable was written. -/
theorem Ties.copied (h : Ties a b) : Ties a.copied b.copied :=
  copied_of (P := fun d => order d b.copied = .eq) (fun _ _ h => by cases b <;> exact h)
    (copied_of (P := fun d => order a d = .eq) (fun _ _ h => by cases a <;> exact h) h)

theorem Ties.eq_const {c : Rat} (h : Ties (const c) b) : b = const c := by
  have hrank := rank_eq_of_order_eq h
  cases b with
  | const d => rw [orderConst_eq_eq.1 h]
  | _ => cases hrank

theorem Ties.reciprocal? (h : Ties a b) :
    Option.Rel (fun p q => Ties p.1 q.1 ∧ p.2 = q.2) (reciprocal? a) (reciprocal? b) := by
  have hrank := rank_eq_of_order_eq h
  cases a with
  | pow x p =>
    cases b with
    | pow y q =>
      obtain ⟨hx, hp⟩ := Ordering.then_eq_eq.1 h
      have hx : Ties x y := hx
      have hp : Ties p q := hp
      cases p with
      | const c =>
        obtain rfl := hp.eq_const
        simp only [Expr.reciprocal?, hx.isConst_eq]
        split
        · exact .some ⟨hx, rfl⟩
        · exact .none
      | _ =>
        cases q with
        | const d => cases rank_eq_of_order_eq hp
        | _ => exact .none
    | _ => cases hrank
  | _ =>
    cases b with
    | pow y q => cases hrank
    | _ => exact .none

theorem Ties.textRank_eq (h : Ties a b) : textRank a = textRank b := by
  have hrank := rank_eq_of_order_eq h
  cases a with
  | const c => rw [h.eq_const]
  | pow x p =>
    cases b with
    | pow y q =>
      have hsome {r r' : Option (Expr × Rat)} (hr : Option.Rel (fun p q => Ties p.1 q.1 ∧ p.2 = q.2)
          r r') : r.isSome = r'.isSome := by
        cases hr <;> rfl
      rw [textRank, textRank, hsome h.reciprocal?]
    | _ => cases hrank
  | _ => cases b <;> first | rfl | cases hrank

theorem Ties.signText_eq (h : Ties a b) : signText a = signText b := by
  have hrank := rank_eq_of_order_eq h
  cases a with
  | const c => rw [h.eq_const]
  | _ => cases b <;> first | rfl | cases hrank

theorem Ties.isSubtracted_eq (h : Ties a b) : isSubtracted a = isSubtracted b := by
  have hrank := rank_eq_of_order_eq h
  cases a with
  | const c => rw [h.eq_const]
  | product fs =>
    cases b with
    | product gs =>
      cases forall₂_of_orderLists h with
      | nil => rfl
      | @cons f g _ _ hfg _ =>
        have hfg : Ties f g := hfg
        cases f with
        | const c => rw [hfg.eq_const]; rfl
        | _ =>
          cases g with
          | const d => cases rank_eq_of_order_eq hfg
          | _ => rfl
    | _ => cases hrank
  | _ => cases b <;> first | rfl | cases hrank

theorem Ties.size_eq (h : Ties a b) : a.size = b.size := by
  refine order_eq_induction (motive := fun a b => a.size = b.size) ?const ?var ?sum ?product ?pow
    ?apply ?call a b h
  case const => exact fun _ => rfl
  case var => exact fun _ _ _ => rfl
  case sum => exact fun as bs h => by rw [size, size, sizes_of_forall₂ h]
  case product => exact fun as bs h => by rw [size, size, sizes_of_forall₂ h]
  case pow => exact fun x p y q hx hp => by rw [size, size, hx, hp]
  case apply => exact fun f a b hab => by rw [size, size, hab]
  case call => exact fun f ps qs d d' as bs h => by rw [size, size, sizes_of_forall₂ h]

/-! The texts. -/

/-- Ties within expressions of the class survive when terms are negated to be subtracted. -/
structure Printable (P : Expr → Prop) : Prop where
  operands : ∀ {e}, P e → ∀ d ∈ e.operands, P d
  negate : ∀ {ts t}, P (sum ts) → t ∈ ts → isSubtracted t = true → P (negate t)
  ties : ∀ {ts us t u}, P (sum ts) → P (sum us) → t ∈ ts → u ∈ us → Ties t u →
    isSubtracted t = true → Ties (Expr.negate t) (Expr.negate u)

section Texts

variable {text : Expr → String}

theorem operandText_eq (place : Nat) (h : Ties a b) (ht : text a = text b) :
    operandText text place a = operandText text place b := by
  rw [operandText, operandText, h.textRank_eq, ht]

/-- A product is printed from its signs and from the texts of its parts. -/
theorem productText_eq (hs : fs.map signText = gs.map signText)
    (ha : (fs.flatMap fun e => (partsOf e).1).map (Part.text text) =
      (gs.flatMap fun e => (partsOf e).1).map (Part.text text))
    (hb : (fs.flatMap fun e => (partsOf e).2).map (Part.text text) =
      (gs.flatMap fun e => (partsOf e).2).map (Part.text text)) :
    productText text fs = productText text gs := by
  simp only [productText, partsText]
  generalize (fs.flatMap fun e => (partsOf e).1) = above at ha
  generalize (gs.flatMap fun e => (partsOf e).1) = above' at ha
  generalize (fs.flatMap fun e => (partsOf e).2) = below at hb
  generalize (gs.flatMap fun e => (partsOf e).2) = below' at hb
  have hempty : above.isEmpty = above'.isEmpty := by
    rw [← List.isEmpty_map (f := Part.text text), ha, List.isEmpty_map]
  rw [hs, ha, hempty]
  congr 1
  have hl : below.length = below'.length := by
    rw [← List.length_map (Part.text text), hb, List.length_map]
  match below, below', hl, hb with
  | [], [], _, _ => rfl
  | [p], [q], _, hb => exact congrArg ("/" ++ ·) (List.cons.inj hb).1
  | p :: p' :: ps, q :: q' :: qs, _, hb =>
    show "/(" ++ "*".intercalate ((p :: p' :: ps).map (Part.text text)) ++ ")" = _
    rw [hb]

variable {P : Expr → Prop} (hP : Printable P)
  (ht : ∀ {x y}, P x → P y → Ties x y → text x = text y)

include hP ht

theorem partsText_eq (ha : P a) (hb : P b) (h : Ties a b) :
    (partsOf a).1.map (Part.text text) = (partsOf b).1.map (Part.text text) ∧
      (partsOf a).2.map (Part.text text) = (partsOf b).2.map (Part.text text) := by
  cases hc : a.isConst with
  | true =>
    obtain ⟨c, rfl⟩ := isConst_eq_true.1 hc
    rw [h.eq_const]
    exact ⟨rfl, rfl⟩
  | false =>
    rw [partsOf_eq hc, partsOf_eq (h.isConst_eq ▸ hc)]
    have hrel := h.reciprocal?
    cases hra : reciprocal? a with
    | none =>
      cases hrb : reciprocal? b with
      | none =>
        exact ⟨congrArg ([·]) (operandText_eq productRank h (ht ha hb h)), rfl⟩
      | some q => rw [hra, hrb] at hrel; cases hrel
    | some p =>
      cases hrb : reciprocal? b with
      | none => rw [hra, hrb] at hrel; cases hrel
      | some q =>
        rw [hra, hrb] at hrel
        cases hrel with
        | some hpq =>
          obtain ⟨hbase, hn⟩ := hpq
          obtain ⟨rfl, -⟩ := reciprocal?_eq_some (n := p.2) hra
          obtain ⟨rfl, -⟩ := reciprocal?_eq_some (n := q.2) hrb
          have htext : text p.1 = text q.1 :=
            ht (hP.operands ha _ (by simp [Expr.operands]))
              (hP.operands hb _ (by simp [Expr.operands])) hbase
          refine ⟨rfl, congrArg ([·]) ?_⟩
          simp only [Part.text, hn, operandText_eq _ hbase htext]

theorem flatMap_partsOf_eq (hfs : ∀ f ∈ fs, P f) (hgs : ∀ g ∈ gs, P g)
    (h : List.Forall₂ Ties fs gs) :
    (fs.flatMap fun e => (partsOf e).1).map (Part.text text) =
        (gs.flatMap fun e => (partsOf e).1).map (Part.text text) ∧
      (fs.flatMap fun e => (partsOf e).2).map (Part.text text) =
        (gs.flatMap fun e => (partsOf e).2).map (Part.text text) := by
  induction h with
  | nil => exact ⟨rfl, rfl⟩
  | cons hfg _ ih =>
    obtain ⟨hf, hfs⟩ := List.forall_mem_cons.1 hfs
    obtain ⟨hg, hgs⟩ := List.forall_mem_cons.1 hgs
    obtain ⟨habove, hbelow⟩ := partsText_eq hP ht hf hg hfg
    obtain ⟨haboves, hbelows⟩ := ih hfs hgs
    simp only [List.flatMap_cons, List.map_append]
    rw [habove, hbelow, haboves, hbelows]
    exact ⟨rfl, rfl⟩

omit hP in
theorem map_text_eq (has : ∀ a ∈ as, P a) (hbs : ∀ b ∈ bs, P b) (h : List.Forall₂ Ties as bs) :
    as.map text = bs.map text := by
  rw [← List.forall₂_eq_eq_eq, List.forall₂_map_left_iff, List.forall₂_map_right_iff]
  exact forall₂_imp_of_mem h fun a ha b hb hab => ht (has a ha) (hbs b hb) hab

theorem nextTermText_eq (ha : P (sum as)) (hb : P (sum bs)) (haa : a ∈ as) (hbb : b ∈ bs)
    (h : Ties a b) : nextTermText text a = nextTermText text b := by
  rw [nextTermText, nextTermText, ← h.isSubtracted_eq]
  split
  · next hs =>
    have hneg := hP.ties ha hb haa hbb h hs
    rw [operandText_eq _ hneg (ht (hP.negate ha haa hs)
      (hP.negate hb hbb (h.isSubtracted_eq ▸ hs)) hneg)]
  · rw [operandText_eq _ h (ht (hP.operands ha a haa) (hP.operands hb b hbb) h)]

theorem sumText_eq (ha : P (sum as)) (hb : P (sum bs)) (h : List.Forall₂ Ties as bs) :
    sumText text as = sumText text bs := by
  have hnext {xs ys : List Expr} (hx : ∀ x ∈ xs, x ∈ as) (hy : ∀ y ∈ ys, y ∈ bs)
      (h : List.Forall₂ Ties xs ys) :
      xs.map (nextTermText text) = ys.map (nextTermText text) := by
    rw [← List.forall₂_eq_eq_eq, List.forall₂_map_left_iff, List.forall₂_map_right_iff]
    exact forall₂_imp_of_mem h fun x hxs y hys hxy =>
      nextTermText_eq hP ht ha hb (hx x hxs) (hy y hys) hxy
  cases h with
  | nil => rfl
  | cons hab htail =>
    rw [sumText, sumText, hnext (fun x => List.mem_cons_of_mem _)
      (fun y => List.mem_cons_of_mem _) htail, operandText_eq _ hab (ht
        (hP.operands ha _ List.mem_cons_self) (hP.operands hb _ List.mem_cons_self) hab)]

theorem powText_eq {x p y q : Expr} (ha : P (pow x p)) (hb : P (pow y q))
    (h : Ties (pow x p) (pow y q)) : powText text x p = powText text y q := by
  have hparts := (partsText_eq hP ht ha hb h).2
  rw [partsOf_eq rfl, partsOf_eq rfl] at hparts
  rw [powText, powText]
  have hrel := h.reciprocal?
  cases hra : Expr.reciprocal? (pow x p) with
  | none =>
    cases hrb : Expr.reciprocal? (pow y q) with
    | none =>
      obtain ⟨hx, hp⟩ := Ordering.then_eq_eq.1 h
      have hda := hP.operands ha
      have hdb := hP.operands hb
      dsimp only
      rw [operandText_eq _ hx (ht (hda x (by simp [Expr.operands]))
          (hdb y (by simp [Expr.operands])) hx),
        operandText_eq _ hp (ht (hda p (by simp [Expr.operands]))
          (hdb q (by simp [Expr.operands])) hp)]
    | some r => rw [hra, hrb] at hrel; cases hrel
  | some r =>
    cases hrb : Expr.reciprocal? (pow y q) with
    | none => rw [hra, hrb] at hrel; cases hrel
    | some r' =>
      rw [hra, hrb] at hparts
      exact congrArg ("1/" ++ ·) (List.cons.inj hparts).1

theorem textBody_eq (ha : P a) (hb : P b) (h : Ties a b) : textBody text a = textBody text b := by
  have hrank := rank_eq_of_order_eq h
  have hda := hP.operands ha
  have hdb := hP.operands hb
  cases a with
  | const c => rw [h.eq_const]
  | var s k =>
    cases b with
    | var t l => rw [textBody, textBody, symbolOrder_eq_eq.1 h]
    | _ => cases hrank
  | sum as =>
    cases b with
    | sum bs => exact sumText_eq hP ht ha hb (forall₂_of_orderLists h)
    | _ => cases hrank
  | product fs =>
    cases b with
    | product gs =>
      have hfg := forall₂_of_orderLists h
      obtain ⟨habove, hbelow⟩ := flatMap_partsOf_eq hP ht hda hdb hfg
      refine productText_eq ?_ habove hbelow
      rw [← List.forall₂_eq_eq_eq, List.forall₂_map_left_iff, List.forall₂_map_right_iff]
      exact hfg.imp fun _ _ => Ties.signText_eq
    | _ => cases hrank
  | pow x p =>
    cases b with
    | pow y q => exact powText_eq hP ht ha hb h
    | _ => cases hrank
  | apply f a =>
    cases b with
    | apply g b =>
      obtain ⟨hf, hab⟩ := Ordering.then_eq_eq.1 h
      obtain rfl : f = g := by cases f <;> cases g <;> first | rfl | cases hf
      rw [textBody, textBody, ht (hda a List.mem_cons_self) (hdb b List.mem_cons_self) hab]
    | _ => cases hrank
  | call f ps d as =>
    cases b with
    | call g qs d' bs =>
      obtain ⟨hf, has⟩ := Ordering.then_eq_eq.1 h
      obtain rfl := Std.LawfulEqOrd.eq_of_compare hf
      have hargs : as.map text = bs.map text := map_text_eq ht hda hdb (forall₂_of_orderLists has)
      rw [textBody, textBody, hargs]
    | _ => cases hrank

end Texts

variable {P : Expr → Prop}

theorem Printable.textWithin_eq (hP : Printable P) (n : Nat) :
    ∀ {a b}, P a → P b → Ties a b → textWithin n a = textWithin n b := by
  induction n with
  | zero => exact fun _ _ _ => rfl
  | succ n ih => exact textBody_eq hP ih

/-- What ties has the same text. -/
theorem Printable.text_eq (hP : Printable P) (ha : P a) (hb : P b) (h : Ties a b) :
    a.text = b.text := by
  rw [text, text, h.size_eq]
  exact hP.textWithin_eq _ ha hb h

end Symbolic.Expr
