import Symbolic.Proofs.Canonical.Fraction
import Symbolic.Proofs.Grammar.Phrase
import Symbolic.Proofs.Grammar.Spelling

/-!
Texts of a rank. `ReadsAt v rank s e` says that the text `s` is read as an expression equal to `e`
wherever an expression of that rank is printed without parentheses. An operator joins the texts of
its operands (`ReadsAt.binary`), and an operand that does not fit its place is put in parentheses
(`Prints.operand`). A number is of the rank that it is printed with (`reads_rat`).
-/

namespace Symbolic.Parser

open Symbolic.Expr Symbolic.Token

variable {v : Vocabulary} {l p l' p' r r' rank : Nat} {s t sep : String} {a b e : Expr}
  {op : Operator}

/-! Texts that are phrases. -/

/-- The text is scanned to a phrase. -/
def Reads (v : Vocabulary) (l p : Nat) (s : String) (e : Expr) : Prop :=
  ∃ xs, Spells s.toList xs ∧ Phrase v l p xs e

/-- The text between two operands is the operator. -/
structure Joins (sep : String) (op : Operator) : Prop where
  breaks : ∀ cs, Breaks (sep.toList ++ cs)
  spells : ∀ {cs xs}, Spells cs xs → Spells (sep.toList ++ cs) (.operator op :: xs)

theorem joins_symbol {c : Char} (hs : sep.toList = [c]) (hc : ofChar? c = some (.operator op)) :
    Joins sep op where
  breaks _ := hs ▸ breaks_symbol hc
  spells h := hs ▸ h.symbol hc

theorem joins_spaced {c : Char} (hs : sep.toList = [' ', c, ' '])
    (hc : ofChar? c = some (.operator op)) : Joins sep op where
  breaks _ := hs ▸ breaks_blank rfl
  spells h := hs ▸ ((h.blank rfl).symbol hc).blank rfl

theorem Reads.enclosed (h : Reads v l p s e) : Reads v l' p' ("(" ++ s ++ ")") e := by
  obtain ⟨xs, hs, hx⟩ := h
  refine ⟨_, ?_, hx.enclosed⟩
  rw [String.toList_append, String.toList_append]
  exact (hs.append (Spells.nil.symbol rfl) (breaks_symbol rfl)).symbol rfl

theorem reads_number (n : Nat) : Reads v l p (toString n) (const n) :=
  ⟨_, spells_nat n, .number n⟩

/-! Texts of a rank. -/

/-- The precedence up to which operators are taken on before the text. -/
def loosest (rank : Nat) : Nat :=
  if rank < productRank then 30 else if rank < sumRank then 20 else 10

/-- The precedence from which an operator behind the text would be taken on. -/
def tightest (rank : Nat) : Nat :=
  if rank < powRank then 31 else if rank < sumRank then 21 else 11

/-- The text is read as an expression equal to `e` where one of the rank is due. -/
def ReadsAt (v : Vocabulary) (rank : Nat) (s : String) (e : Expr) : Prop :=
  Reads v (loosest rank) (tightest rank) s e

theorem loosest_mono (h : r ≤ r') : loosest r' ≤ loosest r := by
  unfold loosest productRank sumRank
  grind

theorem tightest_mono (h : r ≤ r') : tightest r' ≤ tightest r := by
  unfold tightest powRank sumRank
  grind

namespace ReadsAt

theorem canonical (h : ReadsAt v r s e) : Canonical e := by
  obtain ⟨xs, -, hx⟩ := h
  exact hx.canonical

theorem mono (h : ReadsAt v r s e) (hr : r ≤ r') : ReadsAt v r' s e := by
  obtain ⟨xs, hs, hx⟩ := h
  exact ⟨xs, hs, hx.mono (loosest_mono hr) (tightest_mono hr)⟩

theorem alike (h : ReadsAt v r s a) (hb : Canonical b) (hab : Alike a b) : ReadsAt v r s b := by
  obtain ⟨xs, hs, hx⟩ := h
  exact ⟨xs, hs, hx.alike hb hab⟩

theorem copied (h : ReadsAt v r s e) : ReadsAt v r s e.copied :=
  h.alike h.canonical.copied (Alike.symm (alike_copied e))

theorem binary (op : Operator) (ha : ReadsAt v r s a) (hb : ReadsAt v r' t b) (hj : Joins sep op)
    (hp : op.precedence < tightest r) (hl : op.rightPrecedence ≤ loosest r')
    (hrank : loosest rank ≤ min (loosest r) op.precedence)
    (hrank' : tightest rank ≤ min (tightest r') op.rightPrecedence) :
    ReadsAt v rank (s ++ sep ++ t) (op.apply a b) := by
  obtain ⟨xs, hs, hx⟩ := ha
  obtain ⟨ys, ht, hy⟩ := hb
  refine ⟨_, ?_, (hx.binary hy hp hl).mono hrank hrank'⟩
  rw [String.toList_append, String.toList_append, List.append_assoc]
  exact hs.append (hj.spells ht) (hj.breaks _)

theorem plus (ha : ReadsAt v sumRank s a) (hb : ReadsAt v productRank t b) :
    ReadsAt v sumRank (s ++ " + " ++ t) (sumOf [a, b]) :=
  ha.binary .plus hb (joins_spaced rfl rfl) (by decide) (by decide) (by decide) (by decide)

theorem minus (ha : ReadsAt v sumRank s a) (hb : ReadsAt v productRank t b) :
    ReadsAt v sumRank (s ++ " - " ++ t) (subtract a b) :=
  ha.binary .minus hb (joins_spaced rfl rfl) (by decide) (by decide) (by decide) (by decide)

theorem times (ha : ReadsAt v productRank s a) (hb : ReadsAt v powRank t b) :
    ReadsAt v productRank (s ++ "*" ++ t) (productOf [a, b]) :=
  ha.binary .times hb (joins_symbol rfl rfl) (by decide) (by decide) (by decide) (by decide)

theorem divided (ha : ReadsAt v productRank s a) (hb : ReadsAt v powRank t b) :
    ReadsAt v productRank (s ++ "/" ++ t) (divide a b) :=
  ha.binary .divide hb (joins_symbol rfl rfl) (by decide) (by decide) (by decide)
    (by decide)

theorem power (ha : ReadsAt v atomRank s a) (hb : ReadsAt v atomRank t b) :
    ReadsAt v powRank (s ++ "^" ++ t) (powOf a b) :=
  ha.binary .power hb (joins_symbol rfl rfl) (by decide) (by decide) (by decide) (by decide)

theorem negated (h : ReadsAt v powRank s e) : ReadsAt v productRank ("-" ++ s) (negate e) := by
  obtain ⟨xs, hs, hx⟩ := h
  refine ⟨_, ?_, (hx.negated (by decide)).mono (Nat.le_refl _) (by decide)⟩
  rw [String.toList_append]
  exact hs.symbol rfl

end ReadsAt

/-! Operands. -/

variable {text : Expr → String}

/-- The text that is printed for an expression is read as it. -/
def Prints (v : Vocabulary) (text : Expr → String) (e : Expr) : Prop :=
  ReadsAt v (textRank e) (text e) e

theorem constRank_cases (c : Rat) : constRank c = 0 ∨ constRank c = 20 := by
  unfold constRank productRank atomRank
  split
  · exact .inr rfl
  · exact .inl rfl

theorem textRank_cases (e : Expr) :
    textRank e = 0 ∨ textRank e = 10 ∨ textRank e = 20 ∨ textRank e = 30 := by
  cases e with
  | const c => exact (constRank_cases c).imp_right fun h => .inr (.inl h)
  | var _ _ | apply _ _ | call _ _ _ _ => exact .inl rfl
  | sum _ => exact .inr (.inr (.inr rfl))
  | product _ => exact .inr (.inr (.inl rfl))
  | pow b p =>
    rw [textRank]
    split
    · exact .inr (.inr (.inl rfl))
    · exact .inr (.inl rfl)

/-- An operand is put in parentheses if it does not fit its place. -/
theorem Prints.operand (h : Prints v text e) {place : Nat}
    (hr : textRank e < place → textRank e ≤ r) : ReadsAt v r (operandText text place e) e := by
  unfold operandText
  split
  · exact Reads.enclosed h
  · next hlt => exact h.mono (hr (Nat.not_le.1 hlt))

theorem Prints.base (h : Prints v text e) :
    ReadsAt v atomRank (operandText text powRank e) e := by
  refine h.operand fun hr => ?_
  have := textRank_cases e
  unfold powRank atomRank at *
  omega

theorem Prints.factor (h : Prints v text e) :
    ReadsAt v powRank (operandText text productRank e) e := by
  refine h.operand fun hr => ?_
  have := textRank_cases e
  unfold powRank productRank at *
  omega

theorem Prints.term (h : Prints v text e) :
    ReadsAt v productRank (operandText text sumRank e) e := by
  refine h.operand fun hr => ?_
  have := textRank_cases e
  unfold productRank sumRank at *
  omega

/-! Numbers. -/

theorem reads_int (n : Int) : ReadsAt v (constRank n) (toString n) (const n) := by
  cases n with
  | ofNat m => exact reads_number m
  | negSucc m =>
    have hrank : constRank (Int.negSucc m : Rat) = productRank := by
      unfold constRank
      rw [if_pos]
      rw [Bool.or_eq_true, decide_eq_true_eq]
      left
      exact_mod_cast Int.negSucc_lt_zero m
    have hneg : ReadsAt v productRank ("-" ++ toString (m + 1)) (negate (const (m + 1 : Nat))) :=
      ReadsAt.negated (reads_number (m + 1))
    have hvalue : negate (const ((m + 1 : Nat) : Rat)) = const (Int.negSucc m : Rat) := by
      rw [negate, productOf_consts, Int.cast_negSucc, neg_one_mul]
    rw [hrank, ← hvalue]
    exact hneg

theorem constRank_le (c : Rat) : constRank c ≤ productRank := by
  have := constRank_cases c
  unfold productRank
  omega

theorem reads_rat (c : Rat) : ReadsAt v (constRank c) (Rational.text c) (const c) := by
  unfold Rational.text
  split
  · next h =>
    have hc : ((c.num : Int) : Rat) = c := (Rat.den_eq_one_iff c).1 h
    rw [← hc]
    simpa using reads_int c.num
  · next h =>
    have hrank : constRank c = productRank := by
      unfold constRank
      rw [if_pos]
      simp [h]
    have hden : (c.den : Rat) ≠ 0 := by exact_mod_cast c.den_ne_zero
    have hvalue : divide (const c.num) (const c.den) = const c := by
      rw [divide, powOf_const_neg_one hden, productOf_consts, ← div_eq_mul_inv, Rat.num_div_den]
    rw [hrank, ← hvalue]
    exact ((reads_int c.num).mono (constRank_le _)).divided (reads_number c.den)

theorem reads_exponent (n : Rat) : ReadsAt v atomRank (exponentText n) (const n) := by
  unfold exponentText
  split
  · exact (reads_rat n).enclosed
  · next h =>
    have := constRank_cases n
    refine (reads_rat n).mono ?_
    unfold powRank atomRank at *
    omega

end Symbolic.Parser
