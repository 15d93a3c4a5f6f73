import Mathlib.Data.List.Basic
import Symbolic.Grammar.Lexer

/-!
The classes of characters that the scanner tells apart. Blanks, the characters of numbers, those that
start a name and those that are a token by themselves have nothing in common, so that a character is
of one class at most, and it does not matter in which order the scanner asks for them.

The classes are tables of code points, and are compared at once as the bits of numbers
(`classes_apart`).
-/

namespace Symbolic

namespace Text

/-- The number whose bits are the code points of the list. -/
def bits (ns : List Nat) : Nat := ns.foldr (fun n set => 1 <<< n ||| set) 0

/-- The number whose bits are the code points that the table covers. -/
def coveredBits : List (Nat × Nat) → Nat
  | [] => 0
  | (lo, hi) :: rest => ((1 <<< (hi + 1 - lo) - 1) ||| coveredBits rest >>> lo) <<< lo

variable {ranges : List (Nat × Nat)} {ns : List Nat} {a b n : Nat} {c d : Char}

theorem testBit_bits : (bits ns).testBit n = decide (n ∈ ns) := by
  induction ns with
  | nil => rw [bits, List.foldr_nil, Nat.zero_testBit, decide_eq_false List.not_mem_nil]
  | cons k ns ih =>
    have hmem : (k = n ∨ n ∈ ns) ↔ n ∈ k :: ns := by rw [List.mem_cons, eq_comm]
    rw [bits, List.foldr_cons, Nat.one_shiftLeft, Nat.testBit_or, Nat.testBit_two_pow, ← bits, ih,
      ← Bool.decide_or, decide_eq_decide.2 hmem]

theorem testBit_char : (bits [d.toNat]).testBit c.toNat = (c == d) := by
  rw [testBit_bits, Bool.eq_iff_iff, decide_eq_true_eq, beq_iff_eq, List.mem_singleton,
    Char.toNat_inj]

theorem testBit_coveredBits : (coveredBits ranges).testBit n = covers ranges n := by
  induction ranges with
  | nil => rw [coveredBits, covers, Nat.zero_testBit]
  | cons r rest ih =>
    obtain ⟨lo, hi⟩ := r
    rw [coveredBits, covers, Nat.one_shiftLeft, Nat.testBit_shiftLeft, Nat.testBit_or,
      Nat.testBit_two_pow_sub_one, Nat.testBit_shiftRight]
    by_cases hlo : n < lo
    · rw [if_pos hlo, decide_eq_false (Nat.not_le.2 hlo), Bool.false_and]
    · have hn := Nat.not_lt.1 hlo
      have hhi : n - lo < hi + 1 - lo ↔ n ≤ hi := by omega
      rw [if_neg hlo, decide_eq_true hn, Bool.true_and, Nat.add_sub_cancel' hn, ih,
        decide_eq_decide.2 hhi]

theorem testBit_of_subset (h : a &&& b = a) (hn : a.testBit n = true) : b.testBit n = true := by
  rw [← h, Nat.testBit_and, Bool.and_eq_true] at hn
  exact hn.2

theorem testBit_of_disjoint (h : a &&& b = 0) (hn : a.testBit n = true) :
    b.testBit n = false := by
  have hand := congrArg (Nat.testBit · n) h
  rwa [Nat.testBit_and, hn, Bool.true_and, Nat.zero_testBit] at hand

end Text

namespace Token

variable {c : Char} {x : Lexeme}

def startBits : Nat := Text.coveredBits Text.alphabeticRanges ||| Text.bits ['_'.toNat]

def nameBits : Nat := startBits ||| Text.coveredBits Text.numericRanges

def numberBits : Nat := Text.coveredBits [('0'.toNat, '9'.toNat)] ||| Text.bits ['.'.toNat]

theorem testBit_startBits : startBits.testBit c.toNat = startsName c := by
  rw [startBits, Nat.testBit_or, Text.testBit_coveredBits, Text.testBit_char]
  rfl

theorem testBit_nameBits : nameBits.testBit c.toNat = isNameChar c := by
  rw [nameBits, Nat.testBit_or, testBit_startBits, Text.testBit_coveredBits, startsName,
    Bool.or_right_comm]
  rfl

theorem testBit_numberBits : numberBits.testBit c.toNat = isNumberChar c := by
  have hdigit : Text.covers [('0'.toNat, '9'.toNat)] c.toNat = c.isDigit := by
    rw [Bool.eq_iff_iff, Char.isDigit_iff_toNat, Text.covers, Text.covers, Bool.or_false]
    split
    · next hlo => exact ⟨nofun, fun h => absurd h.1 (Nat.not_le.2 hlo)⟩
    · next hlo => exact decide_eq_true_iff.trans (and_iff_right (Nat.not_lt.1 hlo)).symm
  rw [numberBits, Nat.testBit_or, Text.testBit_coveredBits, Text.testBit_char, hdigit]
  rfl

theorem classes_apart : numberBits &&& startBits = 0 ∧
    Text.coveredBits Text.blankRanges &&& (numberBits ||| nameBits) = 0 := by decide +kernel

theorem isBlank_spec (h : Text.isBlank c = true) : isNumberChar c = false ∧ isNameChar c = false := by
  have hbit := Text.testBit_of_disjoint classes_apart.2 (Text.testBit_coveredBits.trans h)
  rwa [Nat.testBit_or, Bool.or_eq_false_iff, testBit_numberBits, testBit_nameBits] at hbit

theorem isNumberChar_spec (h : isNumberChar c = true) :
    Text.isBlank c = false ∧ startsName c = false := by
  constructor
  · by_contra hblank
    have hnumber := (isBlank_spec (Bool.not_eq_false _ ▸ hblank)).1
    exact Bool.false_ne_true (hnumber.symm.trans h)
  · have hbit := Text.testBit_of_disjoint classes_apart.1 (testBit_numberBits.trans h)
    rwa [testBit_startBits] at hbit

theorem isNameChar_spec (h : isNameChar c = true) : Text.isBlank c = false := by
  by_contra hblank
  have hname := (isBlank_spec (Bool.not_eq_false _ ▸ hblank)).2
  exact Bool.false_ne_true (hname.symm.trans h)

/-- What starts a name goes on with one, is no blank and stands in no number. -/
theorem startsName_spec (h : startsName c = true) :
    isNameChar c = true ∧ Text.isBlank c = false ∧ isNumberChar c = false := by
  have hname : isNameChar c = true := by
    rw [isNameChar, Text.isAlphanumeric, Bool.or_right_comm, ← startsName, h, Bool.true_or]
  refine ⟨hname, isNameChar_spec hname, ?_⟩
  by_contra hnumber
  have hstarts := (isNumberChar_spec (Bool.not_eq_false _ ▸ hnumber)).2
  exact Bool.false_ne_true (hstarts.symm.trans h)

/-- What the characters are that are tokens by themselves. -/
theorem ofChar?_spec (h : ofChar? c = some x) :
    Text.isBlank c = false ∧ isNumberChar c = false ∧ startsName c = false ∧
      isNameChar c = false := by
  unfold ofChar? at h
  split at h
  all_goals first | cases h; done | decide

end Token

end Symbolic
