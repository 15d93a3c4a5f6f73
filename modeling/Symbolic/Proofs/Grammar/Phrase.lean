import Symbolic.Proofs.Canonical.Congruence
import Symbolic.Proofs.Canonical.Constructible
import Symbolic.Proofs.Grammar.Readers

/-!
What lexemes are read as. `Phrase v l p xs e` says that the lexemes `xs` are read as an expression
equal to `e`, by a reader that takes operators of precedence `l` or less on, and before a text that
does not go on with an operator of precedence `p` or more. Phrases joined by an operator are a phrase
(`Phrase.binary`), as are a phrase with a sign (`Phrase.negated`), one in parentheses
(`Phrase.enclosed`), and a name with phrases as its arguments (`Phrase.call`).
-/

namespace Symbolic.Parser

open Symbolic.Expr

variable {v : Vocabulary} {stop least : Nat}

/-! Parentheses. -/

/-- Every parenthesis among the lexemes has its partner among them. -/
def Balanced (xs : List Lexeme) : Prop :=
  ∀ opened ts rest, ts.map Token.lexeme = xs →
    Token.checkParentheses opened (ts ++ rest) = Token.checkParentheses opened rest

theorem balanced_nil : Balanced [] := by
  intro opened ts rest hts
  rw [List.map_eq_nil_iff.1 hts]
  rfl

theorem Balanced.append {xs ys : List Lexeme} (hx : Balanced xs) (hy : Balanced ys) :
    Balanced (xs ++ ys) := by
  intro opened ts rest hts
  obtain ⟨us, ws, rfl, hu, hw⟩ := List.map_eq_append_iff.1 hts
  rw [List.append_assoc, hx _ _ _ hu, hy _ _ _ hw]

theorem Balanced.cons {x : Lexeme} {xs : List Lexeme} (h : Balanced xs) (ho : x ≠ .opening)
    (hc : x ≠ .closing) : Balanced (x :: xs) := by
  intro opened ts rest hts
  obtain ⟨⟨y, s⟩, us, rfl, rfl, hu⟩ := List.map_eq_cons_iff.1 hts
  rw [← h opened us rest hu, List.cons_append, Token.checkParentheses.eq_def]
  cases y with
  | opening => exact absurd rfl ho
  | closing => exact absurd rfl hc
  | _ => rfl

theorem Balanced.enclosed {xs : List Lexeme} (h : Balanced xs) :
    Balanced (.opening :: xs ++ [.closing]) := by
  intro opened ts rest hts
  obtain ⟨us, ws, rfl, hu, hw⟩ := List.map_eq_append_iff.1 hts
  obtain ⟨⟨_, s⟩, us, rfl, rfl, hus⟩ := List.map_eq_cons_iff.1 hu
  obtain ⟨⟨_, t⟩, ws, rfl, rfl, hnil⟩ := List.map_eq_cons_iff.1 hw
  rw [List.map_eq_nil_iff.1 hnil, List.append_assoc]
  exact h (s :: opened) us _ hus

/-! Phrases. -/

/-- The lexemes are read as an expression equal to `e`: by a reader that takes operators of precedence
`l` on, before a text that does not go on with an operator of precedence `p`. -/
structure Phrase (v : Vocabulary) (l p : Nat) (xs : List Lexeme) (e : Expr) : Prop where
  canonical : Canonical e
  balanced : Balanced xs
  reads : ∀ ts, ts.map Token.lexeme = xs → ∃ d, Alike d e ∧ Canonical d ∧
    ∀ {stop least rest r}, least ≤ l → Halts p rest →
      Yields (continuation v stop · least d rest) r →
        Yields (expression v stop · least (ts ++ rest)) r

namespace Phrase

variable {l p l' p' : Nat} {xs ys : List Lexeme} {a b e : Expr}

theorem mono (h : Phrase v l p xs e) (hl : l' ≤ l) (hp : p' ≤ p) : Phrase v l' p' xs e := by
  refine ⟨h.canonical, h.balanced, fun ts hts => ?_⟩
  obtain ⟨d, hd, hc, hr⟩ := h.reads ts hts
  exact ⟨d, hd, hc, fun h1 h2 => hr (h1.trans hl) (h2.mono hp)⟩

theorem alike (h : Phrase v l p xs a) (hb : Canonical b) (hab : Alike a b) :
    Phrase v l p xs b := by
  refine ⟨hb, h.balanced, fun ts hts => ?_⟩
  obtain ⟨d, hd, hc, hr⟩ := h.reads ts hts
  exact ⟨d, hd.trans hab, hc, hr⟩

theorem yields (h : Phrase v l p xs e) {ts : List Token} (hts : ts.map Token.lexeme = xs) :
    ∃ d, Alike d e ∧ Canonical d ∧ ∀ {stop least rest}, least ≤ l → Halts p rest →
      Halts least rest → Yields (expression v stop · least (ts ++ rest)) (d, rest) := by
  obtain ⟨d, hd, hc, hr⟩ := h.reads ts hts
  exact ⟨d, hd, hc, fun hl hp hh => hr hl hp (yields_halt hh)⟩

theorem of_operand (he : Canonical e) (hb : Balanced xs)
    (h : ∀ ts, ts.map Token.lexeme = xs → ∃ d, Alike d e ∧ Canonical d ∧ ∀ {stop rest},
      Halts p rest → Yields (operand v stop · (ts ++ rest)) (d, rest)) : Phrase v l p xs e := by
  refine ⟨he, hb, fun ts hts => ?_⟩
  obtain ⟨d, hd, hc, hr⟩ := h ts hts
  exact ⟨d, hd, hc, fun _ hp h => yields_expression (hr hp) h⟩

/-- A phrase starts with something that does not close a parenthesis. -/
theorem exists_head (h : Phrase v l p xs e) {ts : List Token} (hts : ts.map Token.lexeme = xs) :
    ∃ t us, ts = t :: us ∧ t.lexeme ≠ .closing := by
  obtain ⟨d, -, -, hr⟩ := h.yields hts
  have hyields : Yields (expression v 0 · 0 (ts ++ [])) (d, []) := hr (Nat.zero_le _) trivial trivial
  obtain ⟨n, hn⟩ := hyields
  have hread : expression v 0 (n + 2) 0 (ts ++ []) = .ok (d, []) := hn (n + 2) (by omega)
  rw [List.append_nil, expression] at hread
  obtain ⟨⟨left, us⟩, hl, -⟩ := except_bind_eq_ok.1 hread
  rw [operand.eq_def] at hl
  cases ts with
  | nil => cases hl
  | cons t us =>
    refine ⟨t, us, rfl, fun ht => ?_⟩
    obtain ⟨x, s⟩ := t
    obtain rfl : x = .closing := ht
    cases hl

theorem number (q : Rat) : Phrase v l p [.number q] (const q) := by
  refine of_operand (.const q) (balanced_nil.cons (by simp) (by simp)) fun ts hts => ?_
  obtain ⟨⟨_, s⟩, us, rfl, rfl, hu⟩ := List.map_eq_cons_iff.1 hts
  rw [List.map_eq_nil_iff.1 hu]
  exact ⟨const q, .refl _, .const q, fun _ => yields_of_succ fun _ => rfl⟩

theorem ofVariable {name : String} {s : Symbol} {k : Site} (hc : v.callable? name = none)
    (hs : Symbol.ofName name = s) (hv : v.allowed.all (·.contains s) = true) :
    Phrase v l p [.name name] (var s k) := by
  refine of_operand (.var s k) (balanced_nil.cons (by simp) (by simp)) fun ts hts => ?_
  obtain ⟨⟨_, span⟩, us, rfl, rfl, hu⟩ := List.map_eq_cons_iff.1 hts
  rw [List.map_eq_nil_iff.1 hu]
  refine ⟨var s (v.origin + span.start), by simp [Alike, Expr.alike], .var _ _, fun _ => ?_⟩
  refine yields_of_succ fun n => ?_
  rw [List.singleton_append, operand, hc]
  simp only [Vocabulary.variableOf, hs, hv, if_true]
  rfl

theorem negated (h : Phrase v l p xs a) (hl : signPrecedence ≤ l) :
    Phrase v l' (min p signPrecedence) (.operator .minus :: xs) (negate a) := by
  refine of_operand (closed_canonical.negate h.canonical) (h.balanced.cons (by simp) (by simp))
    fun ts hts => ?_
  obtain ⟨⟨_, span⟩, us, rfl, rfl, hu⟩ := List.map_eq_cons_iff.1 hts
  obtain ⟨d, hd, hc, hr⟩ := h.yields hu
  exact ⟨negate d, negate_alike hc h.canonical hd, closed_canonical.negate hc, fun hh =>
    yields_signed (hr hl (hh.mono (Nat.min_le_left _ _)) (hh.mono (Nat.min_le_right _ _)))⟩

theorem operator_alike (op : Operator) {a b a' b' : Expr} (ha : Canonical a) (hb : Canonical b)
    (ha' : Canonical a') (hb' : Canonical b') (haa : Alike a a') (hbb : Alike b b') :
    Alike (op.apply a b) (op.apply a' b') := by
  have hone : Canonical (const (-1)) := .const _
  cases op with
  | plus => exact commutes_sumOf.pair ha hb ha' hb' haa hbb
  | minus =>
    exact commutes_sumOf.pair ha (closed_canonical.negate hb) ha' (closed_canonical.negate hb') haa
      (negate_alike hb hb' hbb)
  | times => exact commutes_productOf.pair ha hb ha' hb' haa hbb
  | divide =>
    exact commutes_productOf.pair ha (closed_canonical.pow hb hone) ha'
      (closed_canonical.pow hb' hone) haa (powOf_alike hb hone hb' hone hbb (.refl _))
  | power => exact powOf_alike ha hb ha' hb' haa hbb

/-- Two phrases joined by an operator, which the left one lets follow and which binds less tightly
than those in the right one. -/
theorem binary {op : Operator} (ha : Phrase v l p xs a) (hb : Phrase v l' p' ys b)
    (hp : op.precedence < p) (hl : op.rightPrecedence ≤ l') :
    Phrase v (min l op.precedence) (min p' op.rightPrecedence) (xs ++ .operator op :: ys)
      (op.apply a b) := by
  refine ⟨closed_canonical.operator op ha.canonical hb.canonical,
    ha.balanced.append (hb.balanced.cons (by simp) (by simp)), fun ts hts => ?_⟩
  obtain ⟨us, ws, rfl, hu, hw⟩ := List.map_eq_append_iff.1 hts
  obtain ⟨⟨_, span⟩, ws, rfl, rfl, hws⟩ := List.map_eq_cons_iff.1 hw
  obtain ⟨c, hca, hc, hleft⟩ := ha.reads us hu
  obtain ⟨d, hdb, hd, hright⟩ := hb.yields hws
  refine ⟨op.apply c d, operator_alike op hc hd ha.canonical hb.canonical hca hdb,
    closed_canonical.operator op hc hd, fun {stop least rest r} hle hh h => ?_⟩
  rw [List.append_assoc]
  refine hleft (hle.trans (Nat.min_le_left _ _)) hp ?_
  exact yields_operator (hle.trans (Nat.min_le_right _ _))
    (hright hl (hh.mono (Nat.min_le_left _ _)) (hh.mono (Nat.min_le_right _ _))) h

theorem enclosed (h : Phrase v l p xs e) : Phrase v l' p' (.opening :: xs ++ [.closing]) e := by
  refine of_operand h.canonical h.balanced.enclosed fun ts hts => ?_
  obtain ⟨us, ws, rfl, hu, hw⟩ := List.map_eq_append_iff.1 hts
  obtain ⟨⟨_, s⟩, us, rfl, rfl, hus⟩ := List.map_eq_cons_iff.1 hu
  obtain ⟨⟨_, t⟩, ws, rfl, rfl, hnil⟩ := List.map_eq_cons_iff.1 hw
  rw [List.map_eq_nil_iff.1 hnil]
  obtain ⟨d, hd, hc, hr⟩ := h.yields hus
  obtain ⟨t, us, rfl, ht⟩ := h.exists_head hus
  refine ⟨d, hd, hc, fun _ => ?_⟩
  rw [List.append_assoc]
  exact yields_enclosed ht (hr (Nat.zero_le _) trivial trivial)

end Phrase

/-! Arguments. -/

/-- The lexemes are read as arguments, equal to `es`, of a call. -/
structure Arguments (v : Vocabulary) (xs : List Lexeme) (es : List Expr) : Prop where
  balanced : Balanced xs
  reads : ∀ ts, ts.map Token.lexeme = xs → ∃ ds, List.Forall₂ Alike ds es ∧
    (∀ d ∈ ds, Canonical d) ∧ ∀ {stop s rest},
      Yields (arguments v stop · (ts ++ ⟨.closing, s⟩ :: rest)) (ds, ⟨.closing, s⟩ :: rest)

/-- The lexemes are read as one argument or more, equal to `es`. -/
structure MoreArguments (v : Vocabulary) (xs : List Lexeme) (es : List Expr) : Prop where
  balanced : Balanced xs
  head : ∀ ts, ts.map Token.lexeme = xs → ∃ t us, ts = t :: us ∧ t.lexeme ≠ .closing
  reads : ∀ ts, ts.map Token.lexeme = xs → ∃ ds, List.Forall₂ Alike ds es ∧
    (∀ d ∈ ds, Canonical d) ∧ ∀ {stop s rest},
      Yields (moreArguments v stop · (ts ++ ⟨.closing, s⟩ :: rest)) (ds, ⟨.closing, s⟩ :: rest)

variable {l p l' p' : Nat} {xs ys : List Lexeme} {e : Expr} {es : List Expr}

theorem Arguments.nil : Arguments v [] [] := by
  refine ⟨balanced_nil, fun ts hts => ⟨[], .nil, List.forall_mem_nil _, ?_⟩⟩
  rw [List.map_eq_nil_iff.1 hts]
  exact yields_of_succ fun _ => rfl

theorem MoreArguments.arguments (h : MoreArguments v xs es) : Arguments v xs es := by
  refine ⟨h.balanced, fun ts hts => ?_⟩
  obtain ⟨ds, hds, hc, hr⟩ := h.reads ts hts
  obtain ⟨t, us, rfl, ht⟩ := h.head ts hts
  exact ⟨ds, hds, hc, yields_arguments ht hr⟩

theorem MoreArguments.single (h : Phrase v l p xs e) : MoreArguments v xs [e] := by
  refine ⟨h.balanced, fun ts hts => h.exists_head hts, fun ts hts => ?_⟩
  obtain ⟨d, hd, hc, hr⟩ := h.yields hts
  exact ⟨[d], .cons hd .nil, List.forall_mem_singleton.2 hc,
    yields_last (hr (Nat.zero_le _) trivial trivial)⟩

theorem MoreArguments.cons (h : Phrase v l p xs e) (hs : MoreArguments v ys es) :
    MoreArguments v (xs ++ .comma :: ys) (e :: es) := by
  refine ⟨h.balanced.append (hs.balanced.cons (by simp) (by simp)), fun ts hts => ?_,
    fun ts hts => ?_⟩
  all_goals
    obtain ⟨us, ws, rfl, hu, hw⟩ := List.map_eq_append_iff.1 hts
    obtain ⟨⟨_, s⟩, ws, rfl, rfl, hws⟩ := List.map_eq_cons_iff.1 hw
  · obtain ⟨t, us, rfl, ht⟩ := h.exists_head hu
    exact ⟨t, us ++ _, rfl, ht⟩
  · obtain ⟨d, hd, hc, hr⟩ := h.yields hu
    obtain ⟨ds, hds, hcs, hrs⟩ := hs.reads ws hws
    refine ⟨d :: ds, .cons hd hds, List.forall_mem_cons.2 ⟨hc, hcs⟩, ?_⟩
    intro stop s rest
    rw [List.append_assoc]
    exact yields_comma (hr (Nat.zero_le _) trivial trivial) hrs

/-- A name, and arguments in parentheses, where the function can be called on these. -/
theorem Phrase.call {name : String} {f : Callable} (hf : v.callable? name = some f)
    (h : Arguments v xs es) (he : Canonical e)
    (hcall : ∀ ds s, List.Forall₂ Alike ds es → (∀ d ∈ ds, Canonical d) →
      ∃ d, f.apply name s ds = .ok d ∧ Alike d e ∧ Canonical d) :
    Phrase v l p (.name name :: (.opening :: xs ++ [.closing])) e := by
  refine .of_operand he (h.balanced.enclosed.cons (by simp) (by simp)) fun ts hts => ?_
  obtain ⟨⟨_, s⟩, us, rfl, rfl, hu⟩ := List.map_eq_cons_iff.1 hts
  obtain ⟨ws, zs, rfl, hw, hz⟩ := List.map_eq_append_iff.1 hu
  obtain ⟨⟨_, s'⟩, ws, rfl, rfl, hws⟩ := List.map_eq_cons_iff.1 hw
  obtain ⟨⟨_, t⟩, zs, rfl, rfl, hnil⟩ := List.map_eq_cons_iff.1 hz
  rw [List.map_eq_nil_iff.1 hnil]
  obtain ⟨ds, hds, hc, hr⟩ := h.reads ws hws
  obtain ⟨d, hd, hde, hdc⟩ := hcall ds s hds hc
  refine ⟨d, hde, hdc, fun _ => ?_⟩
  rw [List.cons_append, List.append_assoc]
  exact yields_call hf hr hd

theorem Phrase.primitive {name : String} {f : Primitive}
    (hf : v.callable? name = some (.primitive f)) (h : Phrase v l p xs e) :
    Phrase v l' p' (.name name :: (.opening :: xs ++ [.closing])) (applyOf f e) := by
  refine .call hf (MoreArguments.single h).arguments (closed_canonical.apply f h.canonical) ?_
  rintro _ s (_ | ⟨hd, _ | _⟩) hc
  exact ⟨_, rfl, applyOf_alike f hd, closed_canonical.apply f (hc _ List.mem_cons_self)⟩

theorem Phrase.function {name : String} {g : Definition} {f : String} {ps : List Symbol} {b : Expr}
    (hg : v.callable? name = some (.function g)) (hs : g.same ⟨f, ps, b⟩ = true)
    (hb : Canonical g.body) (he : Canonical (.call f ps b es)) (h : Arguments v xs es) :
    Phrase v l p (.name name :: (.opening :: xs ++ [.closing])) (.call f ps b es) := by
  refine .call hg h he fun ds s hds hc => ?_
  simp only [Definition.same_eq, Bool.and_eq_true, beq_iff_eq] at hs
  obtain ⟨⟨hf, hps⟩, hbody⟩ := hs
  have hl : ds.length = g.arity := by
    rw [hds.length_eq, (closed_canonical.body he).1, ← hps]
    rfl
  refine ⟨g.on ds, if_pos hl, ?_, .call hl hb hc⟩
  exact alike_call.2 ⟨hf, hps, hbody, hds⟩

end Symbolic.Parser
