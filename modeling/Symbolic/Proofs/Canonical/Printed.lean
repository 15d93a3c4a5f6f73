import Symbolic.Grammar.Vocabulary
import Symbolic.Proofs.Canonical.Steady
import Symbolic.Proofs.Canonical.Ties
import Symbolic.Proofs.Expr.Calls
import Symbolic.Proofs.Expr.Nodewise

/-!
The text of equal expressions. Operands are sorted, so equal canonical expressions tie in the order.
Ties survive the negation of terms that are subtracted if every name that is called stands for one
function, because what ties is equal then (`printable_callsBy`), and if no like powers are left in
those terms, because their factors stay as they are (`printable_settled`). So the constructors give
equal expressions of the same text for equal operands (`constructors_agree`).
-/

namespace Symbolic.Expr

variable {a b : Expr} {fs gs : List Expr}

/-! Where every name stands for one function. -/

/-- Every call is one of the function that the table has under its name. -/
inductive CallsBy (D : String → Definition) : Expr → Prop where
  | const (c : Rat) : CallsBy D (const c)
  | var (s : Symbol) (k : Site) : CallsBy D (var s k)
  | sum {es : List Expr} : (∀ e ∈ es, CallsBy D e) → CallsBy D (sum es)
  | product {es : List Expr} : (∀ e ∈ es, CallsBy D e) → CallsBy D (product es)
  | pow {b p : Expr} : CallsBy D b → CallsBy D p → CallsBy D (pow b p)
  | apply {f : Primitive} {e : Expr} : CallsBy D e → CallsBy D (apply f e)
  | call {f : String} {ps : List Symbol} {b : Expr} {es : List Expr} : ps = (D f).params →
      Alike b (D f).body → (∀ e ∈ es, CallsBy D e) → CallsBy D (call f ps b es)

variable {D : String → Definition}

theorem nodewise_callsBy : Nodewise (CallsBy D) where
  const := .const
  site _ := .var _ _
  sum := ⟨fun h => by cases h; assumption, .sum⟩
  product := ⟨fun h => by cases h; assumption, .product⟩
  pow := ⟨fun h => by cases h; exact ⟨by assumption, by assumption⟩, fun h => .pow h.1 h.2⟩
  apply := ⟨fun h => by cases h; assumption, .apply⟩

theorem CallsBy.operands {e : Expr} (h : CallsBy D e) : ∀ d ∈ e.operands, CallsBy D d := by
  cases h with
  | const c => intro d hd; cases hd
  | var s k => intro d hd; cases hd
  | sum hes => exact hes
  | product hes => exact hes
  | pow hb hp => exact Closed.forall_pair hb hp
  | apply he => exact List.forall_mem_singleton.2 he
  | call _ _ hes => exact hes

theorem CallsBy.of_mem_calls (h : CallsBy D a) :
    ∀ f ∈ a.calls, f.params = (D f.name).params ∧ Alike f.body (D f.name).body := by
  intro f hf
  obtain ⟨es, hcall⟩ := forall_calls (fun _ h => CallsBy.operands h) h f hf
  cases hcall with
  | call hps hbody _ => exact ⟨hps, hbody⟩

theorem CallsBy.alike (ha : CallsBy D a) (hb : CallsBy D b) (h : Ties a b) : Alike a b := by
  refine alike_of_order_eq h fun f hf g hg hn => ?_
  obtain ⟨hps, hbody⟩ := ha.of_mem_calls f hf
  obtain ⟨hqs, hbody'⟩ := hb.of_mem_calls g hg
  rw [← hn] at hqs hbody'
  exact Definition.same_iff.2 ⟨hn, hps.trans hqs.symm, hbody.trans hbody'.symm⟩

theorem CallsBy.of_alike (ha : CallsBy D a) (h : Alike a b) : CallsBy D b := by
  have hlist {as bs : List Expr} (h : Rearranged Alike as bs)
      (ih : ∀ a ∈ as, ∀ {b}, Alike a b → CallsBy D b) : ∀ b ∈ bs, CallsBy D b := by
    intro b hb
    obtain ⟨a, ha, hab⟩ := h.exists_right b hb
    exact ih a ha hab
  induction ha generalizing b with
  | const c =>
    rw [h.eq_const]
    exact .const c
  | var s k =>
    obtain ⟨l, rfl⟩ := h.eq_var
    exact .var s l
  | sum _ ih =>
    obtain ⟨bs, rfl, hbs⟩ := h.eq_sum
    exact .sum (hlist hbs fun a ha _ hab => ih a ha hab)
  | product _ ih =>
    obtain ⟨bs, rfl, hbs⟩ := h.eq_product
    exact .product (hlist hbs fun a ha _ hab => ih a ha hab)
  | pow _ _ ihb ihp =>
    obtain ⟨b', p', rfl, hb, hp⟩ := h.eq_pow
    exact .pow (ihb hb) (ihp hp)
  | apply _ ih =>
    obtain ⟨b', rfl, hb⟩ := h.eq_apply
    exact .apply (ih hb)
  | call hps hbody _ ih =>
    obtain ⟨b', bs, rfl, hb, hbs⟩ := h.eq_call
    exact .call hps (hb.symm.trans hbody) (hlist (.of_forall₂ hbs) fun a ha _ hab => ih a ha hab)

theorem printable_callsBy (D : String → Definition) :
    Printable fun e => Canonical e ∧ CallsBy D e := by
  have hterm {ts : List Expr} {t : Expr} (h : Canonical (sum ts) ∧ CallsBy D (sum ts))
      (ht : t ∈ ts) : Canonical t ∧ CallsBy D t :=
    ⟨h.1.operands t ht, h.2.operands t ht⟩
  refine ⟨fun h d hd => ⟨h.1.operands d hd, h.2.operands d hd⟩, fun h ht _ => ?_, ?_⟩
  · obtain ⟨hc, hcalls⟩ := hterm h ht
    exact ⟨closed_canonical.negate hc,
      nodewise_callsBy.productOf (Closed.forall_pair (.const _) hcalls)⟩
  · intro ts us t u hts hus ht hu htu _
    obtain ⟨hct, ht⟩ := hterm hts ht
    obtain ⟨hcu, hu⟩ := hterm hus hu
    exact order_eq_of_alike (negate_alike hct hcu (ht.alike hu htu))
      (closed_canonical.negate hct) (closed_canonical.negate hcu)

/-! Where the terms that are subtracted are settled. -/

/-- No like powers are left in a term that is subtracted from others. -/
def SubtractsSettled (e : Expr) : Prop :=
  ∀ ts, Subtree e (sum ts) → ∀ t ∈ ts, isSubtracted t = true → Settled t

theorem SubtractsSettled.operands (h : SubtractsSettled a) :
    ∀ d ∈ a.operands, SubtractsSettled d :=
  fun _ hd ts ht => h ts (Subtree.trans (.operand .self hd) ht)

/-- Lists that tie place by place are put together to expressions that tie. -/
theorem ties_finish (unit : Rat) (h : List.Forall₂ Ties fs gs) :
    Ties (finish unit product fs) (finish unit product gs) := by
  match fs, gs, h with
  | [], [], _ => exact order_refl _
  | [_], [_], .cons hfg _ => exact hfg.copied
  | _ :: _ :: _, [], h => cases h
  | _ :: _ :: _, [_], .cons _ h => cases h
  | f :: f' :: fs, g :: g' :: gs, h =>
    -- sorted, the two lists tie again
    obtain ⟨zs, hz, hp⟩ := List.perm_comp_forall₂ (sorted_perm (f :: f' :: fs)) h
    exact orderLists_eq_of_perm (sorted_ascending _) (sorted_ascending _)
      (hp.trans (sorted_perm _).symm) hz

theorem ties_negate (ha : Canonical a) (hb : Canonical b) (hsa : Settled a) (hsb : Settled b)
    (h : Ties a b) (hs : isSubtracted a = true) : Ties (negate a) (negate b) := by
  unfold isSubtracted at hs
  split at hs
  · rw [h.eq_const]
    exact order_refl _
  · next c es =>
    have hrank := rank_eq_of_order_eq h
    cases b with
    | product gs =>
      cases forall₂_of_orderLists h with
      | @cons _ g _ es' hc hes =>
        obtain rfl := Ties.eq_const hc
        rw [negate_eq_finish ha hsa, negate_eq_finish hb hsb]
        refine ties_finish 1 ?_
        rw [withConst, withConst]
        split
        · exact hes
        · exact List.rel_append hes (.cons (order_refl _) .nil)
    | _ => cases hrank
  · cases hs

/-- What is left of the terms that are subtracted, when they are negated. -/
theorem subtractsSettled_negate (ha : Canonical a) (hs : Settled a)
    (hd : ∀ d ∈ a.operands, SubtractsSettled d) (hsub : isSubtracted a = true) :
    SubtractsSettled (negate a) := by
  have hconst (c : Rat) : SubtractsSettled (const c) := by
    intro ts ht
    rcases ht.cases_operand with heq | ⟨d, hd, -⟩
    · cases heq
    · cases hd
  rcases negate_cases ha hs hsub with ⟨c, d, -, heq⟩ | hmem | ⟨c, es, gs, rfl, heq, hp, -⟩
  · rw [heq]
    exact hconst d
  · obtain ⟨d, hmem, heq⟩ := hmem
    rw [heq]
    refine copied_of (fun s k _ ts ht => ?_) (hd d hmem)
    rcases ht.cases_operand with heq | ⟨d, hd, -⟩
    · cases heq
    · cases hd
  · rw [heq]
    intro ts ht
    rcases ht.cases_operand with heq | ⟨d, hdg, ht⟩
    · cases heq
    · have hgs : ∀ g ∈ withConst 1 (-c) es, SubtractsSettled g :=
        forall_withConst (fun g hg => hd g (List.mem_cons_of_mem _ hg)) (hconst _)
      exact hgs d (hp.mem_iff.1 hdg) ts ht

theorem printable_settled : Printable fun e => Canonical e ∧ SubtractsSettled e := by
  have hterm {ts : List Expr} {t : Expr} (h : Canonical (sum ts) ∧ SubtractsSettled (sum ts))
      (ht : t ∈ ts) (hs : isSubtracted t = true) : Canonical t ∧ Settled t :=
    ⟨h.1.operands t ht, h.2 ts .self t ht hs⟩
  refine ⟨fun h d hd => ⟨h.1.operands d hd, h.2.operands d hd⟩, fun {ts t} h ht hs => ?_, ?_⟩
  · obtain ⟨hc, hsettled⟩ := hterm h ht hs
    exact ⟨closed_canonical.negate hc,
      subtractsSettled_negate hc hsettled (h.2.operands t ht).operands hs⟩
  · intro ts us t u hts hus ht hu htu hs
    obtain ⟨hct, hst⟩ := hterm hts ht hs
    obtain ⟨hcu, hsu⟩ := hterm hus hu (htu.isSubtracted_eq ▸ hs)
    exact ties_negate hct hcu hst hsu htu hs

/-! The constructors. -/

/-- The two are equal; and they have the same text if every name that is called stands for one
function, or if no like powers are left in the terms that are subtracted. -/
structure Agree (a b : Expr) : Prop where
  same : a.same b = true
  text : (∃ D, CallsBy D a) ∨ SubtractsSettled a ∧ SubtractsSettled b → a.text = b.text

theorem agree_of_alike (ha : Canonical a) (hb : Canonical b) (h : Alike a b) : Agree a b := by
  have hties : Ties a b := order_eq_of_alike h ha hb
  refine ⟨same_iff.2 h, fun hcond => ?_⟩
  rcases hcond with ⟨D, hD⟩ | ⟨hsa, hsb⟩
  · exact (printable_callsBy D).text_eq ⟨ha, hD⟩ ⟨hb, hD.of_alike h⟩ hties
  · exact printable_settled.text_eq ⟨ha, hsa⟩ ⟨hb, hsb⟩ hties

/-- The constructors and calls give equal expressions for operands that are equal, in sums and
products in any order, and with the same text where a name stands for one function or the terms that
are subtracted are settled. -/
theorem constructors_agree {as bs : List Expr} (ha : ∀ a ∈ as, Constructible a)
    (hb : ∀ b ∈ bs, Constructible b) :
    (Rearranged (fun a b => a.same b = true) as bs →
        Agree (sumOf as) (sumOf bs) ∧ Agree (productOf as) (productOf bs)) ∧
      (∀ a ∈ as, ∀ b ∈ bs, a.same b = true → (∀ f, Agree (applyOf f a) (applyOf f b)) ∧
        ∀ p ∈ as, ∀ q ∈ bs, p.same q = true → Agree (powOf a p) (powOf b q)) ∧
      (List.Forall₂ (fun a b => a.same b = true) as bs → ∀ f g : Definition,
        Constructible f.body → Constructible g.body → f.same g = true →
        (∀ e, f.apply as = .ok e → ∃ e', g.apply bs = .ok e' ∧ Agree e e') ∧
          ∀ x, f.apply as = .error x → g.apply bs = .error x) := by
  have hca : ∀ a ∈ as, Canonical a := fun a h => constructible_canonical (ha a h)
  have hcb : ∀ b ∈ bs, Canonical b := fun b h => constructible_canonical (hb b h)
  refine ⟨fun h => ?_, fun a hma b hmb hab => ⟨fun f => ?_, fun p hmp q hmq hpq => ?_⟩,
    fun h f g hf hg hfg => ?_⟩
  · have halike : Rearranged Alike as bs := h.imp fun _ _ _ _ => same_iff.1
    exact ⟨agree_of_alike (closed_canonical.sum hca) (closed_canonical.sum hcb)
        (sumOf_alike hca hcb halike),
      agree_of_alike (closed_canonical.product hca) (closed_canonical.product hcb)
        (productOf_alike hca hcb halike)⟩
  · exact agree_of_alike (canonical_applyOf f (hca a hma)) (canonical_applyOf f (hcb b hmb))
      (applyOf_alike f (same_iff.1 hab))
  · exact agree_of_alike (closed_canonical.pow (hca a hma) (hca p hmp))
      (closed_canonical.pow (hcb b hmb) (hcb q hmq))
      (powOf_alike (hca a hma) (hca p hmp) (hcb b hmb) (hcb q hmq) (same_iff.1 hab)
        (same_iff.1 hpq))
  · obtain ⟨⟨hname, hparams⟩, hbody⟩ : (f.name = g.name ∧ f.params = g.params) ∧
        f.body.same g.body = true := by
      simpa only [Definition.same, Bool.and_eq_true, beq_iff_eq] using hfg
    have hlength := h.length_eq
    have harity : f.arity = g.arity := congrArg List.length hparams
    have halike : Alike (f.on as) (g.on bs) :=
      alike_call.2 ⟨hname, hparams, same_iff.1 hbody, h.imp fun _ _ => same_iff.1⟩
    rw [Definition.apply, Definition.apply, ← hname, ← harity, ← hlength]
    by_cases hl : as.length = f.arity
    · rw [if_pos hl, if_pos hl]
      refine ⟨fun e he => ⟨_, rfl, ?_⟩, fun x hx => by cases hx⟩
      rw [← Except.ok.inj he]
      exact agree_of_alike (.call hl (constructible_canonical hf) hca)
        (.call ((hlength.symm.trans hl).trans harity) (constructible_canonical hg) hcb) halike
    · rw [if_neg hl, if_neg hl]
      exact ⟨fun e he => (by cases he), fun _ => id⟩

/-- The sums of `sqrt(x)` and `x * y`, in either order, and what is built of `x * y` or `y * x`. -/
theorem constructors_agree_sqrt :
    (sumOf [Builtin.sqrt.on [ofName "x"], ofName "x" * ofName "y"]).text =
        (sumOf [ofName "y" * ofName "x", Builtin.sqrt.on [ofName "x"]]).text ∧
      (powOf (ofName "x" * ofName "y") (Builtin.sqrt.on [ofName "x"])).text =
        (powOf (ofName "y" * ofName "x") (Builtin.sqrt.on [ofName "x"])).text ∧
      (applyOf .sin (ofName "x" * ofName "y")).text =
        (applyOf .sin (ofName "y" * ofName "x")).text ∧
      ∃ e, squareRoot.apply [ofName "y" * ofName "x"] = .ok e ∧
        (squareRoot.on [ofName "x" * ofName "y"]).text = e.text := by
  have hx : Constructible (ofName "x") := .var _ _
  have hy : Constructible (ofName "y") := .var _ _
  have hxy : Constructible (ofName "x" * ofName "y") := .product (Closed.forall_pair hx hy)
  have hyx : Constructible (ofName "y" * ofName "x") := .product (Closed.forall_pair hy hx)
  have hbody : Constructible squareRoot.body := .pow hx (.pow (.const 2) (.const (-1)))
  have hsqrt : Constructible (Builtin.sqrt.on [ofName "x"]) :=
    .call hbody (List.forall_mem_singleton.2 hx) rfl
  have hself : (Builtin.sqrt.on [ofName "x"]).same (Builtin.sqrt.on [ofName "x"]) = true :=
    same_iff.2 (.refl _)
  have hsame : (ofName "x" * ofName "y").same (ofName "y" * ofName "x") = true := by
    decide +kernel
  -- every call is one of the square root
  have hvar (s : String) : CallsBy (fun _ => squareRoot) (ofName s) := .var _ _
  have hproduct : CallsBy (fun _ => squareRoot) (ofName "x" * ofName "y") :=
    nodewise_callsBy.productOf (Closed.forall_pair (hvar "x") (hvar "y"))
  have hcall {e : Expr} (he : CallsBy (fun _ => squareRoot) e) :
      CallsBy (fun _ => squareRoot) (squareRoot.on [e]) :=
    .call rfl (.refl _) (List.forall_mem_singleton.2 he)
  have hboth := hcall (hvar "x")
  obtain ⟨hsum, hoperands, -⟩ :=
    constructors_agree (Closed.forall_pair hsqrt hxy) (Closed.forall_pair hyx hsqrt)
  obtain ⟨happly, hpow⟩ := hoperands _ (.tail _ (.head _)) _ (.head _) hsame
  obtain ⟨-, -, hcalls⟩ :=
    constructors_agree (List.forall_mem_singleton.2 hxy) (List.forall_mem_singleton.2 hyx)
  have htext {d e : Expr} (hd : CallsBy (fun _ => squareRoot) d) (h : Agree d e) :
      d.text = e.text := h.text (.inl ⟨_, hd⟩)
  refine ⟨htext ?_ (hsum (.perm_right (.cons hself (.singleton hsame)) (.swap _ _ _))).1,
    htext ?_ (hpow _ (.head _) _ (.tail _ (.head _)) hself), htext ?_ (happly .sin), ?_⟩
  · exact nodewise_callsBy.sumOf (Closed.forall_pair hboth hproduct)
  · exact nodewise_callsBy.powOf hproduct hboth
  · exact nodewise_callsBy.applyOf .sin hproduct
  · obtain ⟨e, he, hagree⟩ := (hcalls (.cons hsame .nil) squareRoot squareRoot hbody hbody
      (by decide +kernel)).1 _ rfl
    exact ⟨e, he, htext (hcall hproduct) hagree⟩

/-- The function `f(t) = t + c`. -/
def shift (c : Rat) : Definition := .ofNames "f" ["t"] (ofName "t" + const c)

theorem constructible_shift (c : Rat) (s : String) : Constructible ((shift c).on [ofName s]) :=
  .call (f := shift c) (.sum (Closed.forall_pair (.var _ _) (.const c)))
    (List.forall_mem_singleton.2 (.var _ _)) rfl

/-- The power `2 ^ (n * f(x))`, where `f` adds `c`. -/
def shiftedPower (n c : Rat) : Expr := powOf (const 2) (const n * (shift c).on [ofName "x"])

/-- Powers that are merged one after another until two equal ones are left, with a coefficient. -/
def unsettledTerm : Expr :=
  productOf [const (-2), productOf ([1, 1, 2, 4, 8].map fun n => shiftedPower n 1)]

/-- Two powers of the same exponent in print, by functions of one name. -/
def twofoldTerm : Expr := productOf [const (-2), shiftedPower 8 1, shiftedPower 8 2]

theorem constructible_shiftedPower (n c : Rat) : Constructible (shiftedPower n c) :=
  .pow (.const 2) (.product (Closed.forall_pair (.const n) (constructible_shift c "x")))

/-- The two terms tie, so they stand in a sum in the order in which they came, and negated they are
printed differently: the powers of one function merge, and those of two do not. -/
theorem not_constructors_agree :
    Constructible unsettledTerm ∧ Constructible twofoldTerm ∧
      (sumOf [ofName "y", unsettledTerm, twofoldTerm]).same
        (sumOf [ofName "y", twofoldTerm, unsettledTerm]) = true ∧
      (sumOf [ofName "y", unsettledTerm, twofoldTerm]).text =
        "y - 2*2^(16*f(x)) - 2*2^(8*f(x))*2^(8*f(x))" ∧
      (sumOf [ofName "y", twofoldTerm, unsettledTerm]).text =
        "y - 2*2^(8*f(x))*2^(8*f(x)) - 2*2^(16*f(x))" := by
  refine ⟨.product (Closed.forall_pair (.const _) (.product ?_)), .product ?_, ?_, ?_, ?_⟩
  · exact List.forall_mem_map.2 fun n _ => constructible_shiftedPower n 1
  · exact List.forall_mem_cons.2 ⟨.const _,
      Closed.forall_pair (constructible_shiftedPower _ _) (constructible_shiftedPower _ _)⟩
  · decide +kernel
  · decide +kernel
  · decide +kernel

end Symbolic.Expr
