import Symbolic.Proofs.Grammar.Derivation

/-!
What is read is what the grammar derives. A reader that takes operators of precedence `p` on reads a
phrase of the category for `p` (`Category.ofLeast`) up to where it reaches as far as it can: what it
gives is derived (`Parser.accepts`), and what is derived it gives (`Derives.yields`). So the tokens are
read as an expression if and only if they have a derivation, of variables that are allowed, that builds
it (`Parser.ofTokens_derived`).
-/

namespace Symbolic

open Symbolic.Parser Symbolic.ParseTree

variable {v : Vocabulary} {fs : String → Option Callable} {stop n least : Nat} {c : Category}
  {op : Operator} {a b t : ParseTree} {s : Span} {ts us ws : List Token}

/-! Precedence and category. -/

/-- What is read where operators of precedence `p` on are taken. -/
def Category.ofLeast (p : Nat) : Category :=
  if p ≤ 10 then sum else if p ≤ 20 then term else unary

theorem Operator.ofLeast_right (op : Operator) :
    Category.ofLeast op.rightPrecedence = op.category.operand := by
  cases op <;> rfl

theorem Operator.rightPrecedence_le (hop : op.category = c) :
    op.rightPrecedence ≤ c.operand.level := by
  subst hop
  cases op <;> decide

/-- What follows a right operand, as the reader has it and as the grammar has it. -/
theorem halts_right (hop : op.category = c) :
    Halts op.rightPrecedence us ↔ Halts c.operand.level us := by
  refine ⟨fun h => h.mono (Operator.rightPrecedence_le hop), fun h => h.imp fun op' => ?_⟩
  subst hop
  cases op <;> cases op' <;> decide

theorem halts_sign : Halts signPrecedence us ↔ Halts Category.unary.level us := by
  refine ⟨fun h => h.mono (by decide), fun h => h.imp fun op' => ?_⟩
  cases op' <;> decide

/-! Phrases as looser ones. -/

namespace Derives

theorem asUnary (h : Derives fs c ts t us) (hc : 30 ≤ c.level) : Derives fs .unary ts t us := by
  cases c with
  | sum => exact absurd hc (by decide)
  | term => exact absurd hc (by decide)
  | unary => exact h
  | power => exact h.power
  | primary => exact h.primary.power

theorem asTerm (h : Derives fs c ts t us) (hc : 20 ≤ c.level) : Derives fs .term ts t us := by
  cases c with
  | sum => exact absurd hc (by decide)
  | term => exact h
  | _ => exact (h.asUnary (by decide)).term .done

theorem asSum (h : Derives fs c ts t us) : Derives fs .sum ts t us := by
  cases c with
  | sum => exact h
  | _ => exact (h.asTerm (by decide)).sum .done

theorem loosen (h : Derives fs c ts t us) (hc : least ≤ c.level) :
    Derives fs (.ofLeast least) ts t us := by
  unfold Category.ofLeast
  split
  · exact h.asSum
  · split
    · refine h.asTerm ?_
      cases c <;> simp only [Category.level] at hc ⊢ <;> omega
    · refine h.asUnary ?_
      cases c <;> simp only [Category.level] at hc ⊢ <;> omega

end Derives

/-! Phrases joined by an operator. -/

theorem Chains.trans {d a t : ParseTree} {ts us ws : List Token} :
    Chains fs c d ts a us → Chains fs c a us t ws → Chains fs c d ts t ws
  | .done, h => h
  | .more hop hb h, h' => .more hop hb (h.trans h')

namespace Derives

theorem join_sum (h : Derives fs .sum ts a (⟨.operator op, s⟩ :: us)) (hop : op.category = .sum)
    (hb : Derives fs .term us b ws) : Derives fs .sum ts (.joined op a b) ws := by
  cases h with
  | sum h hj => exact h.sum (hj.trans (.more hop hb .done))

theorem join_term (h : Derives fs .term ts a (⟨.operator op, s⟩ :: us)) (hop : op.category = .term)
    (hb : Derives fs .unary us b ws) : Derives fs .term ts (.joined op a b) ws := by
  cases h with
  | term h hj => exact h.term (hj.trans (.more hop hb .done))

/-- A phrase that lets the operator follow is joined to its right operand. -/
theorem join (h : Derives fs c ts a (⟨.operator op, s⟩ :: us))
    (hc : Halts c.operand.level (⟨.operator op, s⟩ :: us))
    (hb : Derives fs op.category.operand us b ws) :
    Derives fs op.category ts (.joined op a b) ws := by
  have hc : op.precedence < c.operand.level := hc
  have hterm (h20 : 20 < c.operand.level) : 20 ≤ c.level := by
    cases c with
    | sum => exact absurd h20 (by decide)
    | _ => decide
  cases op with
  | plus => exact h.asSum.join_sum rfl hb
  | minus => exact h.asSum.join_sum rfl hb
  | times => exact (h.asTerm (hterm hc)).join_term rfl hb
  | divide => exact (h.asTerm (hterm hc)).join_term rfl hb
  | power =>
    -- a power, or what has a sign, lets no power follow
    cases c with
    | primary => exact h.raised hb
    | _ => exact absurd hc (by decide)

end Derives

/-! What is read is derived. -/

/-- Variables that are allowed. -/
def Vocabulary.Admits (v : Vocabulary) (ss : List Symbol) : Prop :=
  ∀ x ∈ ss, v.allowed.all (·.contains x) = true

theorem Vocabulary.admits_append {ss ss' : List Symbol} :
    v.Admits (ss ++ ss') ↔ v.Admits ss ∧ v.Admits ss' :=
  List.forall_mem_append

theorem Vocabulary.variableOf_eq_ok {x : String} {e : Expr} :
    v.variableOf x s = .ok e ↔ v.Admits (ParseTree.name x s).names ∧
      (ParseTree.name x s).value v.origin = e := by
  rw [Admits, names, List.forall_mem_singleton, value, variableOf]
  split
  · next h => exact ⟨fun he => ⟨h, Except.ok.inj he⟩, fun he => congrArg Except.ok he.2⟩
  · next h => exact ⟨nofun, fun he => absurd he.1 h⟩

/-- The tokens are a phrase, with variables that are allowed, whose derivation builds `e`. -/
def Builds (v : Vocabulary) (c : Category) (ts : List Token) (e : Expr) (us : List Token) : Prop :=
  ∃ t, Derives v.callable? c ts t us ∧ v.Admits t.names ∧ t.value v.origin = e

def BuildsOperand (v : Vocabulary) (ts : List Token) (e : Expr) (us : List Token) : Prop :=
  ∃ c, 30 ≤ c.level ∧ Builds v c ts e us ∧ Halts c.operand.level us

def BuildsAll (v : Vocabulary) (ts : List Token) (es : List Expr) (us : List Token) : Prop :=
  ∃ trees, Lists v.callable? ts trees us ∧ v.Admits (namesAll trees) ∧ values v.origin trees = es

namespace Parser

variable {e : Expr} {es : List Expr}

theorem builds_primary (h : Builds v .primary ts e us) : BuildsOperand v ts e us :=
  ⟨.primary, by decide, h, halts_primary us⟩

/-- After a sign, or a name, the operand reaches as far as what is read there. -/
theorem builds_unary (h : Builds v .unary ts e us) (hu : Halts signPrecedence us) :
    BuildsOperand v ts e us :=
  ⟨.unary, by decide, h, halts_sign.1 hu⟩

/-- What the readers give within `n` steps is derived, and an expression reaches as far as it can. The
left operand of a continuation is a phrase of some category, so far that what comes next may follow
it as an operator. -/
structure Accepts (v : Vocabulary) (stop n : Nat) : Prop where
  expression : ∀ {least ts e us}, least ≤ 30 → expression v stop n least ts = .ok (e, us) →
    Builds v (.ofLeast least) ts e us ∧ Halts least us
  continuation : ∀ {least left ts e us c ws}, least ≤ 30 → least ≤ c.level → Builds v c ws left ts →
    Halts c.operand.level ts → continuation v stop n least left ts = .ok (e, us) →
      Builds v (.ofLeast least) ws e us ∧ Halts least us
  operand : ∀ {ts e us}, operand v stop n ts = .ok (e, us) → BuildsOperand v ts e us
  call : ∀ {name span f ts e us}, v.callable? name = some f →
    call v stop n name span f ts = .ok (e, us) → BuildsOperand v (⟨.name name, span⟩ :: ts) e us
  arguments : ∀ {ts es us}, arguments v stop n ts = .ok (es, us) → BuildsAll v ts es us
  moreArguments : ∀ {ts es us}, moreArguments v stop n ts = .ok (es, us) →
    es ≠ [] ∧ BuildsAll v ts es us

theorem accepts_zero : Accepts v stop 0 where
  expression _ h := by cases h
  continuation _ _ _ _ h := by cases h
  operand h := by cases h
  call _ h := by cases h
  arguments h := by cases h
  moreArguments h := by cases h

namespace Accepts

theorem expression_succ (k : Accepts v stop n) (hl : least ≤ 30)
    (h : Parser.expression v stop (n + 1) least ts = .ok (e, us)) :
    Builds v (.ofLeast least) ts e us ∧ Halts least us := by
  rw [Parser.expression] at h
  obtain ⟨⟨left, us⟩, hleft, h⟩ := except_bind_eq_ok.1 h
  obtain ⟨c, hc, hleft, hu⟩ := k.operand hleft
  exact k.continuation hl (Nat.le_trans hl hc) hleft hu h

theorem continuation_succ (k : Accepts v stop n) {left : Expr} (hl : least ≤ 30)
    (hlc : least ≤ c.level) (hleft : Builds v c ws left ts) (hc : Halts c.operand.level ts)
    (h : Parser.continuation v stop (n + 1) least left ts = .ok (e, us)) :
    Builds v (.ofLeast least) ws e us ∧ Halts least us := by
  obtain ⟨a, ha, han, rfl⟩ := hleft
  have hstop : Builds v (.ofLeast least) ws (a.value v.origin) ts := ⟨a, ha.loosen hlc, han, rfl⟩
  unfold Parser.continuation at h
  split at h
  · next op s rest =>
    split at h
    · next hop =>
      cases h
      exact ⟨hstop, hop⟩
    · next hop =>
      obtain ⟨⟨right, rest⟩, hright, h⟩ := except_bind_eq_ok.1 h
      have hle : op.rightPrecedence ≤ 30 := by cases op <;> decide
      obtain ⟨⟨b, hb, hbn, rfl⟩, hrest⟩ := k.expression hle hright
      rw [op.ofLeast_right] at hb
      rw [Operator.precedence_eq rfl] at hop
      refine k.continuation hl (Nat.le_of_not_lt hop) ?_ ((halts_right rfl).1 hrest) h
      exact ⟨.joined op a b, ha.join hc hb, Vocabulary.admits_append.2 ⟨han, hbn⟩, rfl⟩
  · next hop =>
    cases h
    refine ⟨hstop, ?_⟩
    unfold Halts
    split
    · next op s rest => exact absurd rfl (hop op s rest)
    · trivial

theorem operand_succ (k : Accepts v stop n) (h : Parser.operand v stop (n + 1) ts = .ok (e, us)) :
    BuildsOperand v ts e us := by
  unfold Parser.operand at h
  split at h
  · cases h
  · next q s ts =>
    cases h
    exact builds_primary ⟨.number q, .number, List.forall_mem_nil _, rfl⟩
  · next x s ts =>
    split at h
    · next f hf => exact k.call hf h
    · next hx =>
      obtain ⟨d, hd, h⟩ := except_bind_eq_ok.1 h
      cases h
      obtain ⟨hn, hd⟩ := Vocabulary.variableOf_eq_ok.1 hd
      exact builds_primary ⟨.name x s, .name hx, hn, hd⟩
  · next s ts =>
    obtain ⟨⟨d, us⟩, hread, h⟩ := except_bind_eq_ok.1 h
    cases h
    obtain ⟨⟨t, ht, hn, rfl⟩, hu⟩ := k.expression (by decide) hread
    exact builds_unary ⟨.minus t, .minus ht, hn, rfl⟩ hu
  · next s ts =>
    obtain ⟨⟨t, ht, hn, rfl⟩, hu⟩ := k.expression (by decide) h
    exact builds_unary ⟨.plus t, .plus ht, hn, rfl⟩ hu
  · cases h
  · next s ts _ =>
    obtain ⟨⟨d, us⟩, hread, h⟩ := except_bind_eq_ok.1 h
    obtain ⟨ws, hws, h⟩ := except_bind_eq_ok.1 h
    cases h
    obtain ⟨⟨t, ht, hn, hd⟩, -⟩ := k.expression (by decide) hread
    obtain ⟨s', rfl⟩ := closing_eq_ok hws
    exact builds_primary ⟨.group t, .group ht, hn, hd⟩
  · cases h

theorem call_succ (k : Accepts v stop n) {name : String} {span : Span} {f : Callable}
    (hf : v.callable? name = some f)
    (h : Parser.call v stop (n + 1) name span f ts = .ok (e, us)) :
    BuildsOperand v (⟨.name name, span⟩ :: ts) e us := by
  unfold Parser.call at h
  split at h
  · next s ts =>
    obtain ⟨⟨es, us⟩, hes, h⟩ := except_bind_eq_ok.1 h
    obtain ⟨ws, hws, h⟩ := except_bind_eq_ok.1 h
    obtain ⟨d, hd, h⟩ := except_bind_eq_ok.1 h
    cases h
    obtain ⟨trees, ht, hn, rfl⟩ := k.arguments hes
    obtain ⟨s', rfl⟩ := closing_eq_ok hws
    obtain ⟨hlength, hd⟩ := Callable.apply_eq_ok.1 hd
    rw [length_values] at hlength
    exact builds_primary ⟨.call f trees, .call hf ht hlength, hn, hd⟩
  · cases h
  · next ts hopen hnil =>
    split at h
    · next harity =>
      obtain ⟨⟨d, us⟩, hread, h⟩ := except_bind_eq_ok.1 h
      obtain ⟨e', he, h⟩ := except_bind_eq_ok.1 h
      cases h
      obtain ⟨⟨t, ht, hn, rfl⟩, hu⟩ := k.expression (by decide) hread
      obtain ⟨-, he⟩ := Callable.apply_eq_ok.1 he
      obtain ⟨⟨x, s⟩, rest, rfl, -⟩ := ht.exists_head
      have hx : x ≠ .opening := by
        rintro rfl
        exact hopen s rest rfl
      exact builds_unary ⟨.applied f t, .applied hf harity hx ht, hn, he⟩ hu
    · cases h

theorem arguments_succ (k : Accepts v stop n)
    (h : Parser.arguments v stop (n + 1) ts = .ok (es, us)) : BuildsAll v ts es us := by
  unfold Parser.arguments at h
  split at h
  · cases h
    exact ⟨[], .none, List.forall_mem_nil _, rfl⟩
  · exact (k.moreArguments h).2

theorem moreArguments_succ (k : Accepts v stop n)
    (h : Parser.moreArguments v stop (n + 1) ts = .ok (es, us)) :
    es ≠ [] ∧ BuildsAll v ts es us := by
  unfold Parser.moreArguments at h
  obtain ⟨⟨d, rest⟩, hd, h⟩ := except_bind_eq_ok.1 h
  obtain ⟨⟨t, ht, hn, rfl⟩, -⟩ := k.expression (by decide) hd
  simp only at h
  split at h
  · obtain ⟨⟨ds, us⟩, hds, h⟩ := except_bind_eq_ok.1 h
    cases h
    obtain ⟨hne, trees, htrees, hns, rfl⟩ := k.moreArguments hds
    cases trees with
    | nil => exact absurd rfl hne
    | cons u trees =>
      refine ⟨List.cons_ne_nil _ _, t :: u :: trees, .more ht htrees, ?_, rfl⟩
      exact Vocabulary.admits_append.2 ⟨hn, hns⟩
  · cases h
    refine ⟨List.cons_ne_nil _ _, [t], .last ht, ?_, rfl⟩
    exact Vocabulary.admits_append.2 ⟨hn, List.forall_mem_nil _⟩
  · cases h
  · cases h

end Accepts

theorem accepts (n : Nat) : Accepts v stop n := by
  induction n with
  | zero => exact accepts_zero
  | succ n k =>
    exact ⟨k.expression_succ, k.continuation_succ, k.operand_succ, k.call_succ, k.arguments_succ,
      k.moreArguments_succ⟩

end Parser

/-! What is derived is read. -/

theorem Chains.names_subset {c : Category} {a t : ParseTree} {ts us : List Token} :
    Chains fs c a ts t us → a.names ⊆ t.names
  | .done => List.Subset.refl _
  | .more _ _ h => List.Subset.trans (List.subset_append_left _ _) h.names_subset

theorem Vocabulary.Admits.subset {ss ss' : List Symbol} (h : v.Admits ss') (hs : ss ⊆ ss') :
    v.Admits ss :=
  fun x hx => h x (hs hx)

theorem Lists.yields_arguments {trees : List ParseTree} {es : List Expr}
    (h : Lists v.callable? ts trees us) (hes : values v.origin trees = es) (hu : Closes us)
    (hmore : trees ≠ [] → Yields (moreArguments v stop · ts) (es, us)) :
    Yields (arguments v stop · ts) (es, us) := by
  have hhead (ht : ∃ y ws, ts = y :: ws ∧ y.lexeme ≠ .closing) (hne : trees ≠ []) :
      Yields (arguments v stop · ts) (es, us) := by
    obtain ⟨y, ws, rfl, hy⟩ := ht
    exact Parser.yields_arguments hy (hmore hne)
  cases h with
  | none =>
    obtain ⟨s, ws, rfl⟩ := hu
    subst hes
    exact yields_of_succ fun _ => rfl
  | last ht => exact hhead ht.exists_head (List.cons_ne_nil _ _)
  | more ht _ => exact hhead ht.exists_head (List.cons_ne_nil _ _)

mutual

/-- A reader that takes the operators of a phrase reads the phrase, and then goes on after it. What it
gives in the end is that of the continuation, so that a phrase may be a left operand. -/
theorem Derives.yields {c : Category} {t : ParseTree} {ts us : List Token} {least : Nat}
    {r : Expr × List Token} : Derives v.callable? c ts t us → v.Admits t.names → least ≤ c.level →
      Halts c.operand.level us → Yields (continuation v stop · least (t.value v.origin) us) r →
        Yields (expression v stop · least ts) r
  | .number, _, _, _, hr => yields_expression (yields_of_succ fun _ => rfl) hr
  | .name hx, hn, _, _, hr =>
    yields_expression (yields_name hx (Vocabulary.variableOf_eq_ok.2 ⟨hn, rfl⟩)) hr
  | .group h, hn, _, _, hr => by
    have hd := h.yields hn (Nat.zero_le _) trivial (yields_halt trivial)
    obtain ⟨y, ws, rfl, hy⟩ := h.exists_head
    exact yields_expression (yields_enclosed hy hd) hr
  | .call hf h hl, hn, _, _, hr => by
    have hes := h.yields_arguments rfl ⟨_, _, rfl⟩ (h.yields hn ⟨_, _, rfl⟩)
    have hlength := (length_values v.origin _).trans hl
    exact yields_expression (yields_call hf hes (Callable.apply_eq_ok.2 ⟨hlength, rfl⟩)) hr
  | .primary h, hn, hle, _, hr => h.yields hn (Nat.le_succ_of_le hle) (halts_primary _) hr
  | .raised h hp, hn, hle, hu, hr => by
    obtain ⟨hbn, hpn⟩ := Vocabulary.admits_append.1 hn
    have hright := hp.yields hpn (Nat.le_refl 30) hu (yields_halt hu)
    exact h.yields hbn (Nat.le_succ_of_le hle) (halts_primary _) (yields_operator hle hright hr)
  | .power h, hn, hle, hu, hr => h.yields hn hle hu hr
  | .minus h, hn, _, hu, hr =>
    yields_expression
      (yields_signed (h.yields hn (by decide) hu (yields_halt (halts_sign.2 hu)))) hr
  | .plus h, hn, _, hu, hr =>
    yields_expression
      (yields_unsigned (h.yields hn (by decide) hu (yields_halt (halts_sign.2 hu)))) hr
  | .applied hf ha hy h, hn, _, hu, hr =>
    yields_expression
      (yields_applied hf ha hy (h.yields hn (by decide) hu (yields_halt (halts_sign.2 hu)))
        (Callable.apply_eq_ok.2 ⟨ha.symm, rfl⟩)) hr
  | .term h hj, hn, hle, hu, hr =>
    have hlt : Category.term.level < Category.term.operand.level := by decide
    h.yields (hn.subset hj.names_subset) (Nat.le_trans hle (by decide)) (hj.halts hlt hu)
      (hj.yields hn hlt hle hu hr)
  | .sum h hj, hn, hle, hu, hr =>
    have hlt : Category.sum.level < Category.sum.operand.level := by decide
    h.yields (hn.subset hj.names_subset) (Nat.le_trans hle (by decide))
      ((hj.halts hlt hu).mono (by decide)) (hj.yields hn hlt hle hu hr)

theorem Chains.yields {c : Category} {a t : ParseTree} {ts us : List Token} {least : Nat}
    {r : Expr × List Token} : Chains v.callable? c a ts t us → v.Admits t.names →
      c.level < c.operand.level → least ≤ c.level → Halts c.operand.level us →
        Yields (continuation v stop · least (t.value v.origin) us) r →
          Yields (continuation v stop · least (a.value v.origin) ts) r
  | .done, _, _, _, _, hr => hr
  | .more hop h hj, hn, hc, hle, hu, hr => by
    -- the category is not put in place of `c`: `h` has to stay a part of the derivation
    have hnext := hj.halts hc hu
    have hbn := Vocabulary.admits_append.1 (hn.subset hj.names_subset)
    have hright := h.yields hbn.2 (Operator.rightPrecedence_le hop)
      (hnext.mono (Category.level_le_operand _)) (yields_halt ((halts_right hop).2 hnext))
    exact yields_operator (Operator.precedence_eq hop ▸ hle) hright (hj.yields hn hc hle hu hr)

theorem Lists.yields {es : List ParseTree} {ts us : List Token} : Lists v.callable? ts es us →
    v.Admits (namesAll es) → Closes us → es ≠ [] →
      Yields (moreArguments v stop · ts) (values v.origin es, us)
  | .none, _, _, hne => absurd rfl hne
  | .last h, hn, hu, _ => by
    have hn := (Vocabulary.admits_append.1 hn).1
    have hread := h.yields hn (Nat.zero_le _) (hu.halts _) (yields_halt (hu.halts _))
    obtain ⟨s, ws, rfl⟩ := hu
    exact yields_last hread
  | .more h hes, hn, hu, _ => by
    obtain ⟨hn, hns⟩ := Vocabulary.admits_append.1 hn
    exact yields_comma (h.yields hn (Nat.zero_le _) trivial (yields_halt trivial))
      (hes.yields hns hu (List.cons_ne_nil _ _))

end

namespace Parser

/-- All tokens are read, as what a derivation of them builds. -/
theorem ofTokens_eq_ok {e : Expr} : ofTokens v ts = .ok e ↔ Builds v .sum ts e [] := by
  constructor
  · intro h
    obtain ⟨⟨d, rest⟩, hread, h⟩ := except_bind_eq_ok.1 h
    obtain ⟨hd, -⟩ := (accepts _).expression (Nat.zero_le 30) hread
    cases rest with
    | nil =>
      cases h
      exact hd
    | cons t rest => cases h
  · rintro ⟨t, ht, hn, rfl⟩
    exact ofTokens_of_yields (ht.yields hn (Nat.zero_le _) trivial (yields_halt trivial))

/-- Tokens have one derivation at most. They are read if they have one, as the expression that is
built along it; where only some variables are allowed, if besides no other variable occurs. -/
theorem ofTokens_derived (v : Vocabulary) (ts : List Token) :
    (∀ t t', Derives v.callable? .sum ts t [] → Derives v.callable? .sum ts t' [] → t = t') ∧
      (∀ e, ofTokens { v with allowed := none } ts = .ok e ↔
        ∃ t, Derives v.callable? .sum ts t [] ∧ t.value v.origin = e) ∧
      ∀ ss e, ofTokens { v with allowed := some ss } ts = .ok e ↔
        ∃ t, Derives v.callable? .sum ts t [] ∧ (∀ s ∈ t.names, s ∈ ss) ∧ t.value v.origin = e := by
  refine ⟨fun t t' ht ht' => (ht.unique ht' trivial trivial).1, fun e => ?_, fun ss e => ?_⟩
  · rw [ofTokens_eq_ok]
    refine exists_congr fun t => and_congr_right fun _ => ?_
    exact and_iff_right fun _ _ => rfl
  · rw [ofTokens_eq_ok]
    refine exists_congr fun t => and_congr_right fun _ => and_congr_left fun _ => ?_
    exact forall₂_congr fun s _ => List.contains_iff_mem

/-- The tokens of `-sin x^y - 2/x*(y + 3)`. -/
def mixedTokens : List Token :=
  [⟨.operator .minus, ⟨0, 1⟩⟩, ⟨.name "sin", ⟨1, 4⟩⟩, ⟨.name "x", ⟨5, 6⟩⟩, ⟨.operator .power, ⟨6, 7⟩⟩,
    ⟨.name "y", ⟨7, 8⟩⟩, ⟨.operator .minus, ⟨9, 10⟩⟩, ⟨.number 2, ⟨11, 12⟩⟩,
    ⟨.operator .divide, ⟨12, 13⟩⟩, ⟨.name "x", ⟨13, 14⟩⟩, ⟨.operator .times, ⟨14, 15⟩⟩,
    ⟨.opening, ⟨15, 16⟩⟩, ⟨.name "y", ⟨16, 17⟩⟩, ⟨.operator .plus, ⟨18, 19⟩⟩, ⟨.number 3, ⟨20, 21⟩⟩,
    ⟨.closing, ⟨21, 22⟩⟩]

/-- The sine is that of the whole power, the sign is that of the sine, and what is subtracted is the
quotient by `x` times the sum. -/
def mixedTree : ParseTree :=
  .joined .minus
    (.minus (.applied (.primitive .sin) (.joined .power (.name "x" ⟨5, 6⟩) (.name "y" ⟨7, 8⟩))))
    (.joined .times (.joined .divide (.number 2) (.name "x" ⟨13, 14⟩))
      (.group (.joined .plus (.name "y" ⟨16, 17⟩) (.number 3))))

/-- Without a limit to the variables the tokens are read; where `y` is not allowed they are not. -/
theorem ofTokens_derived_mixed :
    (∀ t, Derives Vocabulary.empty.callable? .sum mixedTokens t [] → t = mixedTree) ∧
      ofTokens { Vocabulary.empty with allowed := none } mixedTokens =
        .ok (Expr.subtract
          (Expr.negate (Expr.applyOf .sin
            (Expr.powOf (.var (.ofName "x") 5) (.var (.ofName "y") 7))))
          (Expr.productOf [Expr.divide (.const 2) (.var (.ofName "x") 13),
            Expr.sumOf [.var (.ofName "y") 16, .const 3]])) ∧
      ∀ e, ofTokens { Vocabulary.empty with allowed := some [.ofName "x"] } mixedTokens ≠ .ok e := by
  have hfree : (Vocabulary.empty.callable? "x").isNone ∧ (Vocabulary.empty.callable? "y").isNone := by
    decide +kernel
  have hx := Option.isNone_iff_eq_none.1 hfree.1
  have hy := Option.isNone_iff_eq_none.1 hfree.2
  have hsin : Vocabulary.empty.callable? "sin" = some (.primitive .sin) := rfl
  have hunary {t : ParseTree} {ts us : List Token}
      (h : Derives Vocabulary.empty.callable? .primary ts t us) :
      Derives Vocabulary.empty.callable? .unary ts t us := .power (.primary h)
  have hpower : Derives Vocabulary.empty.callable? .unary (mixedTokens.drop 2)
      (.joined .power (.name "x" ⟨5, 6⟩) (.name "y" ⟨7, 8⟩)) (mixedTokens.drop 5) :=
    .power (.raised (.name hx) (hunary (.name hy)))
  have hsine : Derives Vocabulary.empty.callable? .unary mixedTokens
      (.minus (.applied (.primitive .sin) (.joined .power (.name "x" ⟨5, 6⟩) (.name "y" ⟨7, 8⟩))))
      (mixedTokens.drop 5) :=
    .minus (.applied hsin rfl nofun hpower)
  have hgroup : Derives Vocabulary.empty.callable? .primary (mixedTokens.drop 10)
      (.group (.joined .plus (.name "y" ⟨16, 17⟩) (.number 3))) [] :=
    .group (.sum (.term (hunary (.name hy)) .done)
      (.more rfl (.term (hunary .number) .done) .done))
  have hterm : Derives Vocabulary.empty.callable? .term (mixedTokens.drop 6)
      (.joined .times (.joined .divide (.number 2) (.name "x" ⟨13, 14⟩))
        (.group (.joined .plus (.name "y" ⟨16, 17⟩) (.number 3)))) [] :=
    .term (hunary .number) (.more rfl (hunary (.name hx)) (.more rfl (hunary hgroup) .done))
  have hderived : Derives Vocabulary.empty.callable? .sum mixedTokens mixedTree [] :=
    .sum (.term hsine .done) (.more rfl hterm .done)
  obtain ⟨hunique, hread, hallowed⟩ := ofTokens_derived .empty mixedTokens
  refine ⟨fun t ht => hunique _ _ ht hderived, (hread _).2 ⟨_, hderived, rfl⟩, fun e he => ?_⟩
  obtain ⟨t, ht, hn, -⟩ := (hallowed _ e).1 he
  rw [hunique _ _ ht hderived] at hn
  exact absurd (hn (.ofName "y") (by decide +kernel)) (by decide +kernel)

end Parser

end Symbolic
