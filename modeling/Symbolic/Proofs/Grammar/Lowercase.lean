import Mathlib.Data.List.Basic
import Symbolic.Proofs.Grammar.Characters

/-!
Lower case of names. Each character of a name but one has a single character as its lower-case form,
which stands in names as well and is its own lower-case form (`exists_lowered`). So a name without
that one is put into a name (`name_lowerAfter`) that is in lower case (`lowerAfter_settled`). The one
is the capital I with a dot: its form is an `i` and a combining dot, which stands in no name
(`dot_mem_lowerAfter`).

What is said of single characters is read off the tables, with the code points of the runs and their
forms as the bits of two numbers (`formBits_spec`).
-/

namespace Symbolic.Text

open Symbolic.Token

variable {r : CaseRun} {n : Nat} {before after cs : List Char} {c d : Char}

/-! The runs of the table. -/

namespace CaseRun

def form (r : CaseRun) (n : Nat) : Nat := (n + r.shift).toNat

def members (r : CaseRun) : List Nat :=
  List.range' r.first ((r.last - r.first) / r.step + 1) r.step

theorem holds_iff :
    r.holds n = true ↔ r.first ≤ n ∧ n ≤ r.last ∧ r.step ∣ n - r.first := by
  rw [holds, Bool.and_eq_true, Bool.and_eq_true, decide_eq_true_eq, decide_eq_true_eq, beq_iff_eq,
    and_assoc, Nat.dvd_iff_mod_eq_zero]

theorem mem_members (h : r.holds n = true) : n ∈ r.members := by
  obtain ⟨hfirst, hlast, hstep⟩ := holds_iff.1 h
  have hcount : (n - r.first) / r.step < (r.last - r.first) / r.step + 1 :=
    Nat.lt_succ_of_le (Nat.div_le_div_right (Nat.sub_le_sub_right hlast r.first))
  refine List.mem_range'.2 ⟨_, hcount, ?_⟩
  rw [Nat.mul_div_cancel' hstep, Nat.add_sub_cancel' hfirst]

end CaseRun

/-- The code points that the table has a form of. -/
def heldBits : Nat := bits (lowerRuns.flatMap CaseRun.members)

/-- The lower-case forms: those of the table and the two of the capital sigma. -/
def formBits : Nat :=
  bits ('ς'.toNat :: 'σ'.toNat :: lowerRuns.flatMap fun r => r.members.map r.form)

/-- Lower-case forms are letters. None of them has another form, in the table or beside it. -/
theorem formBits_spec :
    formBits &&& (coveredBits alphabeticRanges &&& coveredBits [(0, 0xd7ff), (0xe000, 0x10ffff)]) =
      formBits ∧
    formBits &&& (heldBits ||| bits ['Σ'.toNat] ||| bits ['İ'.toNat]) = 0 := by decide +kernel

theorem held_of_run (hr : r ∈ lowerRuns) (hn : r.holds n = true) : heldBits.testBit n = true := by
  rw [heldBits, testBit_bits, decide_eq_true_eq]
  exact List.mem_flatMap.2 ⟨r, hr, CaseRun.mem_members hn⟩

theorem form_of_run (hr : r ∈ lowerRuns) (hn : r.holds n = true) :
    formBits.testBit (r.form n) = true := by
  rw [formBits, testBit_bits, decide_eq_true_eq]
  refine List.mem_cons_of_mem _ (List.mem_cons_of_mem _ (List.mem_flatMap.2 ⟨r, hr, ?_⟩))
  exact List.mem_map_of_mem (CaseRun.mem_members hn)

theorem isValidChar_of_form (h : formBits.testBit n = true) : n.isValidChar := by
  have hn := testBit_of_subset formBits_spec.1 h
  rw [Nat.testBit_and, Bool.and_eq_true] at hn
  obtain ⟨-, hn⟩ := hn
  rw [testBit_coveredBits, covers, covers, covers, if_neg (Nat.not_lt_zero n), Bool.or_false] at hn
  unfold Nat.isValidChar
  split at hn
  · rw [Bool.or_false, decide_eq_true_eq] at hn
    exact .inl (Nat.lt_succ_of_le hn)
  · rw [Bool.or_eq_true, decide_eq_true_eq, decide_eq_true_eq] at hn
    omega

/-! Single characters. -/

theorem toNat_ofNat (h : n.isValidChar) : (Char.ofNat n).toNat = n := by
  rw [Char.ofNat, dif_pos h]
  rfl

/-- The capital letters of the first run are the only ones of a single byte. -/
theorem toLower_cases (c : Char) : c.toLower = c ∨
    (⟨0x41, 0x5a, 1, 32⟩ : CaseRun).holds c.toNat = true ∧
      c.toLower.toNat = (⟨0x41, 0x5a, 1, 32⟩ : CaseRun).form c.toNat := by
  by_cases h : c.val ≥ 'A'.val ∧ c.val ≤ 'Z'.val
  · have hlower : c.toLower.val = c.val + 32 := congrArg Char.val (dif_pos h)
    have hlo : 0x41 ≤ c.toNat := h.1
    have hhi : c.toNat ≤ 0x5a := h.2
    refine .inr ⟨CaseRun.holds_iff.2 ⟨hlo, hhi, Nat.one_dvd _⟩, ?_⟩
    have hform : c.toLower.toNat = (c.toNat + 32) % 2 ^ 32 := congrArg UInt32.toNat hlower
    rw [hform]
    change (c.toNat + 32) % 2 ^ 32 = (c.toNat + (32 : Int)).toNat
    omega
  · exact .inl (dif_neg h)

/-- A character is its own lower-case form, or the table has the form. -/
theorem lowerChar_cases (c : Char) : lowerChar c = c ∨
    ∃ r ∈ lowerRuns, r.holds c.toNat = true ∧ (lowerChar c).toNat = r.form c.toNat := by
  by_cases hascii : c.toNat < 0x80
  · rw [lowerChar, if_pos hascii]
    exact (toLower_cases c).imp_right fun hc => ⟨_, List.mem_cons_self, hc⟩
  · rw [lowerChar, if_neg hascii]
    cases hr : lowerRuns.find? (·.holds c.toNat) with
    | none => exact .inl rfl
    | some r =>
      have hmem := List.mem_of_find?_eq_some hr
      have hholds : r.holds c.toNat = true :=
        List.find?_some (p := fun (r : CaseRun) => r.holds c.toNat) hr
      have hvalid := isValidChar_of_form (form_of_run hmem hholds)
      exact .inr ⟨r, hmem, hholds, toNat_ofNat hvalid⟩

/-- The character is in lower case, wherever it stands. -/
def Settled (d : Char) : Prop := ∀ before after, lowered before d after = [d]

theorem settled_of_ne (hsigma : d ≠ 'Σ') (hdot : d ≠ 'İ') (hd : lowerChar d = d) : Settled d := by
  intro before after
  rw [lowered, if_neg hsigma, if_neg hdot, hd]

theorem form_spec (h : formBits.testBit d.toNat = true) : isAlphabetic d = true ∧ Settled d := by
  have hletter := testBit_of_subset formBits_spec.1 h
  have hfree := testBit_of_disjoint formBits_spec.2 h
  rw [Nat.testBit_and, Bool.and_eq_true, testBit_coveredBits] at hletter
  rw [Nat.testBit_or, Nat.testBit_or, Bool.or_eq_false_iff, Bool.or_eq_false_iff, testBit_char,
    testBit_char, beq_eq_false_iff_ne, beq_eq_false_iff_ne] at hfree
  obtain ⟨⟨hheld, hsigma⟩, hdot⟩ := hfree
  refine ⟨hletter.1, settled_of_ne hsigma hdot ?_⟩
  obtain hself | ⟨r, hr, hholds, -⟩ := lowerChar_cases d
  · exact hself
  · exact absurd (held_of_run hr hholds) (Bool.eq_false_iff.1 hheld)

theorem alphabetic_name (h : isAlphabetic d = true) :
    isNameChar d = true ∧ startsName d = true := by
  constructor
  · rw [isNameChar, isAlphanumeric, h, Bool.true_or, Bool.true_or]
  · rw [startsName, h, Bool.true_or]

/-- A character of a name has a character of names as its lower-case form. -/
theorem exists_lowered (before after : List Char) (hc : c ≠ 'İ') :
    ∃ d, lowered before c after = [d] ∧ Settled d ∧ (isNameChar c = true → isNameChar d = true) ∧
      (startsName c = true → startsName d = true) := by
  have hform {d : Char} (hlowered : lowered before c after = [d])
      (hd : formBits.testBit d.toNat = true) : ∃ d, lowered before c after = [d] ∧ Settled d ∧
        (isNameChar c = true → isNameChar d = true) ∧
        (startsName c = true → startsName d = true) := by
    obtain ⟨halpha, hsettled⟩ := form_spec hd
    obtain ⟨hname, hstarts⟩ := alphabetic_name halpha
    exact ⟨d, hlowered, hsettled, fun _ => hname, fun _ => hstarts⟩
  by_cases hsigma : c = 'Σ'
  · refine hform (by rw [lowered, if_pos hsigma]) ?_
    rw [formBits, testBit_bits, decide_eq_true_eq]
    split
    · exact List.mem_cons_self
    · exact List.mem_cons_of_mem _ List.mem_cons_self
  · have hlowered : lowered before c after = [lowerChar c] := by
      rw [lowered, if_neg hsigma, if_neg hc]
    obtain hself | ⟨r, hr, hholds, heq⟩ := lowerChar_cases c
    · rw [hself] at hlowered
      exact ⟨c, hlowered, settled_of_ne hsigma hc hself, id, id⟩
    · exact hform hlowered (heq ▸ form_of_run hr hholds)

/-! Names. -/

theorem lowerAfter_settled (h : ∀ c ∈ cs, Settled c) : lowerAfter before cs = cs := by
  induction cs generalizing before with
  | nil => rfl
  | cons c cs ih =>
    obtain ⟨hc, hcs⟩ := List.forall_mem_cons.1 h
    rw [lowerAfter, hc, ih hcs]
    rfl

theorem name_lowerAfter (h : ∀ c ∈ cs, isNameChar c = true) (hdot : 'İ' ∉ cs) :
    ∀ d ∈ lowerAfter before cs, isNameChar d = true ∧ Settled d := by
  induction cs generalizing before with
  | nil => nofun
  | cons c cs ih =>
    obtain ⟨hc, hcs⟩ := List.forall_mem_cons.1 h
    obtain ⟨hne, hdot⟩ := not_or.1 (mt List.mem_cons.2 hdot)
    obtain ⟨d, hd, hsettled, hname, -⟩ := exists_lowered before cs (Ne.symm hne)
    rw [lowerAfter, hd]
    exact List.forall_mem_cons.2 ⟨⟨hname hc, hsettled⟩, ih hcs hdot⟩

theorem dot_mem_lowerAfter (h : 'İ' ∈ cs) : '\u0307' ∈ lowerAfter before cs := by
  induction cs generalizing before with
  | nil => cases h
  | cons c cs ih =>
    rw [lowerAfter, List.mem_append]
    rcases List.mem_cons.1 h with rfl | h
    · refine .inl ?_
      change '\u0307' ∈ ['i', '\u0307']
      decide
    · exact .inr (ih h)

theorem not_blank_lowerAfter (h : ∀ c ∈ cs, isNameChar c = true) :
    ∀ d ∈ lowerAfter before cs, isBlank d = false := by
  induction cs generalizing before with
  | nil => nofun
  | cons c cs ih =>
    obtain ⟨hc, hcs⟩ := List.forall_mem_cons.1 h
    rw [lowerAfter]
    refine List.forall_mem_append.2 ⟨?_, ih hcs⟩
    by_cases hdot : c = 'İ'
    · subst hdot
      exact List.forall_mem_cons.2 ⟨by decide, List.forall_mem_singleton.2 (by decide)⟩
    · obtain ⟨d, hd, -, hname, -⟩ := exists_lowered before cs hdot
      rw [hd]
      exact List.forall_mem_singleton.2 (isNameChar_spec (hname hc))

end Symbolic.Text
