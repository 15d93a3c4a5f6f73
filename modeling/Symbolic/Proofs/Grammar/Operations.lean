import Symbolic.Proofs.Canonical.Steady
import Symbolic.Proofs.Grammar.Printing

/-!
Sums, products and powers are read as what they were printed for, if that is what they are rebuilt
to. The text of a sum grows by a term at a time (`reads_sumText`), and that of each side of a fraction
by a part at a time (`reads_parts`). What has been read of it so far is the sum or the product of what
has been printed, because nothing is merged among the operands; so in the end it is the sum of all
terms, or the fraction whose pieces make up the product (`reads_productText`).
-/

namespace Symbolic.Parser

open Symbolic.Expr Symbolic.Token

variable {v : Vocabulary} {text : Expr → String} {s : String} {b e : Expr} {as fs ts : List Expr}

/-! Texts that grow by a piece at a time. -/

/-- What holds of the text so far, and of the pieces that it is made of, holds of the whole text if
one more piece keeps it. -/
theorem join_induction {α : Type} {step : α → String} {Q : List α → String → Prop} {xs : List α}
    (h0 : Q [] s)
    (hstep : ∀ {us x vs t}, xs = us ++ x :: vs → Q us t → Q (us ++ [x]) (t ++ step x)) :
    Q xs (s ++ String.join (xs.map step)) := by
  have h : ∀ vs us t, xs = us ++ vs → Q us t → Q xs (t ++ String.join (vs.map step)) := by
    intro vs
    induction vs with
    | nil =>
      intro us t hxs hus
      rw [hxs, List.append_nil, List.map_nil, String.join_nil, String.append_empty]
      exact hus
    | cons x vs ih =>
      intro us t hxs hus
      rw [List.map_cons, String.join_cons, ← String.append_assoc]
      exact ih (us ++ [x]) _ (by rw [hxs, List.append_assoc]; rfl) (hstep hxs hus)
  exact h xs [] s rfl h0

theorem intercalate_eq_join (sep s : String) (ts : List String) :
    sep.intercalate (s :: ts) = s ++ String.join (ts.map (sep ++ ·)) := by
  induction ts generalizing s with
  | nil => rw [List.map_nil, String.join_nil, String.append_empty, String.intercalate_singleton]
  | cons t ts ih =>
    rw [String.intercalate_cons_cons, ih, List.map_cons, String.join_cons, String.append_assoc,
      String.append_assoc]

/-! Parts of a fraction. -/

/-- The expressions whose texts are put into that of a part. -/
def partOperands : Part → List Expr
  | .number _ => []
  | .factor e => [e]
  | .power b _ => [b]

theorem reads_part {p : Part} (h : ∀ e ∈ partOperands p, Prints v text e) :
    ReadsAt v powRank (p.text text) p.value := by
  cases p with
  | number n => exact reads_number n
  | factor e => exact (h e List.mem_cons_self).factor
  | power b n =>
    have hb : Prints v text b := h b List.mem_cons_self
    rw [Part.text, Part.value, divisor]
    split
    · exact hb.factor
    · exact hb.base.power (reads_exponent n)

/-- A part is printed with the factor that it is of, or with an operand of that. -/
theorem partOperands_subset {f : Expr} {p : Part} (h : p ∈ (partsOf f).1 ∨ p ∈ (partsOf f).2) :
    ∀ e ∈ partOperands p, e = f ∨ e ∈ f.operands := by
  by_cases hc : f.isConst = true
  · obtain ⟨c, rfl⟩ := isConst_eq_true.1 hc
    have hp : ∃ n, p = .number n := by
      simp only [partsOf] at h
      rcases h with h | h
      all_goals
        split at h
        · cases h
        · exact ⟨_, List.mem_singleton.1 h⟩
    obtain ⟨n, rfl⟩ := hp
    exact List.forall_mem_nil _
  · rw [partsOf_eq (Bool.not_eq_true _ ▸ hc)] at h
    cases hr : reciprocal? f with
    | none =>
      rw [hr] at h
      obtain rfl : p = .factor f := by simpa using h
      exact List.forall_mem_singleton.2 (.inl rfl)
    | some bn =>
      obtain ⟨b, n⟩ := bn
      rw [hr] at h
      obtain rfl : p = .power b n := by simpa using h
      obtain ⟨rfl, -, -⟩ := reciprocal?_eq_some hr
      exact List.forall_mem_singleton.2 (.inr List.mem_cons_self)

/-! Sides of a fraction. -/

theorem partsText_cons (text : Expr → String) (p : Part) (ps : List Part) :
    partsText text (p :: ps) = p.text text ++ String.join (ps.map fun q => "*" ++ q.text text) := by
  rw [partsText, List.map_cons, intercalate_eq_join, List.map_map]
  rfl

/-- What is read of one side grows by a part at a time. -/
theorem reads_parts {ps : List Part} (h0 : ReadsAt v productRank s (productOf as))
    (ha : ∀ a ∈ as, Canonical a) (hps : ∀ p ∈ ps, ReadsAt v powRank (p.text text) p.value)
    (hf : Factors (as ++ ps.map Part.value)) :
    ReadsAt v productRank (s ++ String.join (ps.map fun p => "*" ++ p.text text))
      (productOf (as ++ ps.map Part.value)) := by
  refine join_induction
    (Q := fun us s => ReadsAt v productRank s (productOf (as ++ us.map Part.value)))
    (by rwa [List.map_nil, List.append_nil]) fun {us x vs t} hxs h => ?_
  have hx : ReadsAt v powRank (x.text text) x.value := hps x (by simp [hxs])
  have hlast : Factors ((as ++ us.map Part.value) ++ [x.value]) := hf.sublist (by simp [hxs])
  have hcanon : Canonical (productOf ((as ++ us.map Part.value) ++ [x.value])) := by
    refine closed_canonical.product fun f hfmem => ?_
    rcases List.mem_append.1 hfmem with hfmem | hfmem
    · rcases List.mem_append.1 hfmem with hfmem | hfmem
      · exact ha f hfmem
      · obtain ⟨p, hp, rfl⟩ := List.mem_map.1 hfmem
        exact (hps p (by simp [hxs, hp])).canonical
    · exact List.mem_singleton.1 hfmem ▸ hx.canonical
  have hread := (h.times hx).alike hcanon (productOf_concat hlast)
  rwa [List.append_assoc, ← List.map_singleton (f := Part.value), ← List.map_append,
    String.append_assoc] at hread

theorem sign_cases (hl : (constants fs).length ≤ 1) :
    String.join (fs.map signText) = "" ∧ fs.flatMap signOf = [] ∨
      String.join (fs.map signText) = "-" ∧ fs.flatMap signOf = [const (-1)] := by
  have hnone {es : List Expr} (h : constants es = []) :
      String.join (es.map signText) = "" ∧ es.flatMap signOf = [] := by
    induction es with
    | nil => exact ⟨rfl, rfl⟩
    | cons e es ih =>
      cases e with
      | const c => cases h
      | _ =>
        rw [List.map_cons, String.join_cons, List.flatMap_cons, (ih h).1, (ih h).2]
        exact ⟨rfl, rfl⟩
  induction fs with
  | nil => exact .inl (hnone rfl)
  | cons f fs ih =>
    rw [List.map_cons, String.join_cons, List.flatMap_cons]
    cases f with
    | const c =>
      -- no other constant follows
      have hrest : constants fs = [] := by
        have hc : constants (const c :: fs) = c :: constants fs := rfl
        rw [hc, List.length_cons] at hl
        exact List.eq_nil_of_length_eq_zero (by omega)
      rw [(hnone hrest).1, (hnone hrest).2, signText, signOf]
      split
      · exact .inr ⟨rfl, rfl⟩
      · exact .inl ⟨rfl, rfl⟩
    | _ => exact ih hl

/-- The sign of a product and what stands above the bar, a one if nothing else does. -/
def aboveText (text : Expr → String) (fs : List Expr) : String :=
  let above := fs.flatMap fun e => (partsOf e).1
  String.join (fs.map signText) ++ if above.isEmpty then "1" else partsText text above

theorem reads_above (hf : Factors (numerator fs)) (hl : (constants fs).length ≤ 1)
    (h : ∀ p ∈ fs.flatMap (fun f => (partsOf f).1), ReadsAt v powRank (p.text text) p.value) :
    ReadsAt v productRank (aboveText text fs) (productOf (numerator fs)) := by
  have hone : ReadsAt v powRank "1" (const 1) := reads_number 1
  rw [numerator] at hf ⊢
  rw [aboveText]
  generalize (fs.flatMap fun f => (partsOf f).1) = ps at hf h
  cases ps with
  | nil =>
    rcases sign_cases hl with ⟨hs, hsign⟩ | ⟨hs, hsign⟩
    · have hvalue : productOf ([] ++ List.map Part.value []) = const 1 :=
        (hsign ▸ hf).productOf_eq
      rw [hs, hsign, hvalue]
      exact hone.mono (by decide)
    · have hvalue : productOf ([const (-1)] ++ List.map Part.value []) = negate (const 1) := by
        rw [negate, productOf_consts, mul_one]
        exact productOf_const (-1)
      rw [hs, hsign, hvalue]
      exact hone.negated
  | cons p ps =>
    obtain ⟨hp, hps⟩ := List.forall_mem_cons.1 h
    rw [List.isEmpty_cons, if_neg Bool.false_ne_true, partsText_cons, ← String.append_assoc,
      List.map_cons, List.append_cons]
    rw [List.map_cons, List.append_cons] at hf
    rcases sign_cases hl with ⟨hs, hsign⟩ | ⟨hs, hsign⟩
    · rw [hsign, List.nil_append] at hf ⊢
      have hfirst : productOf [p.value] = p.value.copied :=
        (hf.sublist (List.sublist_append_left _ _)).productOf_singleton
      rw [hs, String.empty_append]
      exact reads_parts (hfirst.symm ▸ hp.copied.mono (by decide)) (by simpa using hp.canonical) hps
        hf
    · rw [hsign] at hf ⊢
      rw [hs]
      exact reads_parts hp.negated (by simpa using ⟨.const _, hp.canonical⟩) hps hf

theorem reads_below {p : Part} {ps : List Part} (hf : Factors ((p :: ps).map Part.value))
    (h : ∀ q ∈ p :: ps, ReadsAt v powRank (q.text text) q.value) :
    ReadsAt v productRank (partsText text (p :: ps)) (productOf ((p :: ps).map Part.value)) := by
  obtain ⟨hp, hps⟩ := List.forall_mem_cons.1 h
  have hf : Factors ([p.value] ++ ps.map Part.value) := hf
  have hfirst : productOf [p.value] = p.value.copied :=
    (hf.sublist (List.sublist_append_left _ _)).productOf_singleton
  rw [partsText_cons]
  show ReadsAt v productRank _ (productOf ([p.value] ++ ps.map Part.value))
  exact reads_parts (hfirst.symm ▸ hp.copied.mono (by decide)) (by simpa using hp.canonical) hps hf

/-! Products. -/

/-- A product is read as the fraction that it is printed as, and its factors make up that. -/
theorem reads_productText (he : Canonical (product fs)) (hs : Steady (product fs))
    (h : ∀ f ∈ fs, Prints v text f ∧ ∀ d ∈ f.operands, Prints v text d) :
    ReadsAt v productRank (productText text fs) (product fs) := by
  have hl := he.product_shape.one_const
  have hfs : ∀ f ∈ fs, Canonical f := he.operands
  have hf : Factors fs := (factors_spec he (settled_of_same he (hs _ .self)) (by simp)).1
  obtain ⟨hpieces, halike⟩ := productOf_pieces hfs hf
  have hparts {p : Part} {f : Expr} (hmem : f ∈ fs)
      (hp : p ∈ (partsOf f).1 ∨ p ∈ (partsOf f).2) : ReadsAt v powRank (p.text text) p.value := by
    refine reads_part fun e he => ?_
    rcases partOperands_subset hp e he with rfl | he
    · exact (h _ hmem).1
    · exact (h f hmem).2 e he
  have habove : ReadsAt v productRank (aboveText text fs) (productOf (numerator fs)) := by
    refine reads_above (hpieces.sublist (List.sublist_append_left _ _)) hl fun p hp => ?_
    obtain ⟨f, hmem, hp⟩ := List.mem_flatMap.1 hp
    exact hparts hmem (.inl hp)
  have hbelow : ∀ p ∈ fs.flatMap (fun f => (partsOf f).2),
      ReadsAt v powRank (p.text text) p.value := by
    intro p hp
    obtain ⟨f, hmem, hp⟩ := List.mem_flatMap.1 hp
    exact hparts hmem (.inr hp)
  obtain ⟨hden, hinv⟩ := factors_denominator hfs hf hl
  have hwhole := halike.trans hs.rebuilt
  rw [denominator] at hpieces hwhole hden hinv
  show ReadsAt v productRank (aboveText text fs ++ _) _
  generalize (fs.flatMap fun f => (partsOf f).2) = ps at hbelow hpieces hwhole hden hinv
  rcases ps with _ | ⟨p, _ | ⟨q, ps⟩⟩
  · -- no bar
    rw [List.map_nil, List.map_nil, List.append_nil] at hwhole
    rw [String.append_empty]
    exact habove.alike he hwhole
  · have hp : ReadsAt v powRank (p.text text) p.value := hbelow p List.mem_cons_self
    rw [← String.append_assoc]
    exact (habove.divided hp).alike he ((productOf_concat hpieces).trans hwhole)
  · -- several parts below the bar are put in parentheses, and divide as their product
    have hside := reads_below hden hbelow
    have hinverse : ∀ d ∈ ((p :: q :: ps).map Part.value).map inverse, Canonical d := by
      refine List.forall_mem_map.2 (List.forall_mem_map.2 fun p hp => ?_)
      exact closed_canonical.pow (hbelow p hp).canonical (.const _)
    have hdivide := commutes_productOf.pair habove.canonical
      (closed_canonical.pow hside.canonical (.const (-1))) habove.canonical
      (closed_canonical.product hinverse) (.refl _) hinv
    have henclosed : ReadsAt v powRank _ _ := Reads.enclosed hside
    have hread := habove.divided henclosed
    have hopen : "/(" = "/" ++ "(" := rfl
    show ReadsAt v productRank (_ ++ ("/(" ++ _ ++ ")")) _
    rw [hopen]
    simp only [String.append_assoc] at hread ⊢
    exact hread.alike he (hdivide.trans ((productOf_productOf hpieces).trans hwhole))

/-! Sums. -/

/-- A sum is read as its terms. The negative of a term is printed where the term is subtracted, and
the negative of that is the term. -/
theorem reads_sumText (he : Canonical (sum ts)) (hs : Steady (sum ts))
    (h : ∀ t ∈ ts, Prints v text t ∧ (isSubtracted t = true → Prints v text (negate t))) :
    ReadsAt v sumRank (sumText text ts) (sum ts) := by
  have hts : Terms ts := terms_spec he (settled_of_same he (hs _ .self))
  obtain ⟨t, u, us, rfl⟩ := exists_cons_cons_of_two_le he.sum_shape.two_le
  generalize u :: us = ts at he hs h hts
  have hfirst : ReadsAt v sumRank (operandText text sumRank t) (sumOf [t]) := by
    rw [(hts.sublist (List.singleton_sublist.2 List.mem_cons_self)).sumOf_singleton]
    exact (h t List.mem_cons_self).1.term.copied.mono (by decide)
  refine (join_induction (Q := fun us s => ReadsAt v sumRank s (sumOf (t :: us))) hfirst
    fun {us x vs s} hxs hus => ?_).alike he hs.rebuilt
  have hmem : x ∈ t :: ts := List.mem_cons_of_mem _ (by simp [hxs])
  have hsub : (t :: us ++ [x]).Sublist (t :: ts) := by simp [hxs]
  have hx : Canonical x := he.operands x hmem
  have hcanon : Canonical (sumOf (t :: us ++ [x])) :=
    closed_canonical.sum fun d hd => he.operands d (hsub.subset hd)
  have hlast : Alike (sumOf [sumOf (t :: us), x]) (sumOf (t :: us ++ [x])) :=
    sumOf_concat (hts.sublist hsub)
  rw [nextTermText]
  split
  · next hneg =>
    have hprints : Prints v text (negate x) := (h x hmem).2 hneg
    have hne : x ≠ const 0 := fun h0 =>
      he.sum_shape.kept 0 (mem_constants.2 (h0 ▸ hmem)) List.mem_cons_self
    have htwice : Alike (negate (negate x)) x :=
      negate_negate hx (settled_of_same hx (hs _ (.operand .self hmem))) hne
    have hsubtract : Alike (subtract (sumOf (t :: us)) (negate x)) (sumOf [sumOf (t :: us), x]) :=
      commutes_sumOf.pair hus.canonical (closed_canonical.negate hprints.canonical) hus.canonical
        hx (.refl _) htwice
    rw [← String.append_assoc]
    exact (hus.minus hprints.term).alike hcanon (hsubtract.trans hlast)
  · rw [← String.append_assoc]
    exact (hus.plus (h x hmem).1.term).alike hcanon hlast

/-! Powers. -/

/-- A power that is printed as a division is read as one divided by the power. -/
theorem reads_powText {p : Expr} (he : Canonical (pow b p)) (hs : Steady (pow b p))
    (hb : Prints v text b) (hp : Prints v text p) :
    ReadsAt v (textRank (pow b p)) (powText text b p) (pow b p) := by
  rw [powText, textRank]
  cases hr : reciprocal? (pow b p) with
  | none => exact (hb.base.power hp.base).alike he hs.rebuilt
  | some bn =>
    obtain ⟨d, n⟩ := bn
    obtain ⟨heq, hc, hn⟩ := reciprocal?_eq_some hr
    obtain ⟨rfl, rfl⟩ := pow.inj heq
    have hone : ReadsAt v productRank "1" (const 1) := reads_number 1
    have hpart : ReadsAt v powRank ((Part.power b n).text text) (divisor b n) :=
      reads_part (p := .power b n) (List.forall_mem_singleton.2 hb)
    have hpow : Factors [pow b (const (-n))] := (factors_spec he trivial (by simp)).1
    have hvalue : Alike (divide (const 1) (divisor b n)) (pow b (const (-n))) := by
      rw [divide, ← inverse, inverse_divisor he hc hn]
      have hunit := productOf_alike_of_perm (hpow.cons_const one_ne_zero) hpow
        (by simp [constants, const?]) (.refl _)
      rw [hpow.productOf_singleton] at hunit
      exact hunit
    have hread : ReadsAt v productRank _ _ := hone.divided hpart
    exact hread.alike he hvalue

end Symbolic.Parser
