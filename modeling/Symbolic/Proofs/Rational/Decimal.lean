import Mathlib.Algebra.Field.Basic
import Mathlib.Algebra.Field.Rat
import Mathlib.Algebra.Order.Ring.Rat
import Mathlib.Data.List.Basic
import Mathlib.Data.Rat.Lemmas
import Symbolic.Rational.Decimal

/-!
Decimal literals. A literal is digits, digits with a point behind some of them, or a point before
digits; its value is that of the digits before the point and that of those behind it, which count for
less the more of them there are (`Decimal`). Just these texts are read, with their values, unless
more digits stand behind the point than are counted (`decimal?_eq_some`).
-/

namespace Symbolic

/-- A run of characters that the text behind it does not go on with is taken as it is. -/
theorem takeWhile_run {α : Type} {p : α → Bool} {cs ds : List α} (hcs : ∀ c ∈ cs, p c = true)
    (hds : ∀ c ∈ ds.head?, p c = false) :
    (cs ++ ds).takeWhile p = cs ∧ (cs ++ ds).dropWhile p = ds := by
  rw [List.takeWhile_append_of_pos hcs, List.dropWhile_append_of_pos hcs]
  cases ds with
  | nil => simp
  | cons d ds => simp [hds d rfl]

namespace Rational

variable {whole fraction tail cs : List Char} {q : Rat}

def amountOf (ds : List Char) : Rat := (Nat.ofDigitChars 10 ds 0 : Nat)

/-- The text is a decimal literal with the value. -/
inductive Decimal : List Char → Rat → Prop
  | digits {ds : List Char} (hne : ds ≠ []) (hds : ∀ d ∈ ds, d.isDigit = true) :
      Decimal ds (amountOf ds)
  | pointed {whole fraction : List Char} (hne : whole ≠ [])
      (hwhole : ∀ d ∈ whole, d.isDigit = true) (hfraction : ∀ d ∈ fraction, d.isDigit = true) :
      Decimal (whole ++ '.' :: fraction) (amountOf whole + amountOf fraction / 10 ^ fraction.length)
  | point {fraction : List Char} (hne : fraction ≠ [])
      (hfraction : ∀ d ∈ fraction, d.isDigit = true) :
      Decimal ('.' :: fraction) (amountOf fraction / 10 ^ fraction.length)

/-- How many characters stand behind the first point. -/
def places (cs : List Char) : Nat := (cs.dropWhile (· != '.')).length - 1

theorem mkRat_digitsValue (whole fraction : List Char) :
    mkRat (digitsValue 0 (whole ++ fraction)) (Nat.pow 10 fraction.length) =
      amountOf whole + amountOf fraction / 10 ^ fraction.length := by
  have hvalue : digitsValue 0 (whole ++ fraction) =
      10 ^ fraction.length * Nat.ofDigitChars 10 whole 0 + Nat.ofDigitChars 10 fraction 0 := by
    change Nat.ofDigitChars 10 (whole ++ fraction) 0 = _
    rw [Nat.ofDigitChars_append, Nat.ofDigitChars_eq_ofDigitChars_zero]
  have hten : (10 : Rat) ^ fraction.length ≠ 0 := pow_ne_zero _ (by decide)
  rw [Rat.mkRat_eq_div, hvalue, Nat.pow_eq, amountOf, amountOf]
  push_cast
  rw [add_div, mul_div_cancel_left₀ _ hten]

theorem splitPoint_append (hwhole : '.' ∉ whole) (htail : ∀ c ∈ tail.head?, c = '.') :
    splitPoint (whole ++ tail) = (whole, tail.drop 1) ∧
      places (whole ++ tail) = (tail.drop 1).length := by
  have hrun : ∀ c ∈ whole, (c != '.') = true := fun c hc => bne_iff_ne.2 fun h => hwhole (h ▸ hc)
  have hpoint : ∀ c ∈ tail.head?, (c != '.') = false := fun c hc => by rw [htail c hc]; rfl
  obtain ⟨htake, hdrop⟩ := takeWhile_run hrun hpoint
  rw [splitPoint, places, htake, hdrop, List.length_drop]
  exact ⟨rfl, rfl⟩

theorem decimal?_append (hwhole : '.' ∉ whole) (htail : ∀ c ∈ tail.head?, c = '.') :
    decimal? (String.ofList (whole ++ tail)) = some q ↔
      ((whole ≠ [] ∨ tail.drop 1 ≠ []) ∧ (∀ d ∈ whole ++ tail.drop 1, d.isDigit = true) ∧
        q = amountOf whole + amountOf (tail.drop 1) / 10 ^ (tail.drop 1).length) ∧
      places (whole ++ tail) ≤ maxPlaces := by
  obtain ⟨hsplit, hplaces⟩ := splitPoint_append hwhole htail
  rw [decimal?, String.toList_ofList, hsplit, hplaces]
  simp only
  split
  · next hempty =>
    rw [Bool.and_eq_true, List.isEmpty_iff, List.isEmpty_iff] at hempty
    exact iff_of_false (by simp) fun h => h.1.1.elim (· hempty.1) (· hempty.2)
  next hempty =>
  have hne : whole ≠ [] ∨ tail.drop 1 ≠ [] := by
    rw [Bool.and_eq_true, List.isEmpty_iff, List.isEmpty_iff, not_and_or] at hempty
    exact hempty
  rw [and_iff_right hne]
  split
  · next hall =>
    rw [Bool.not_eq_true', ← Bool.not_eq_true, List.all_eq_true] at hall
    exact iff_of_false (by simp) fun h => hall h.1.1
  next hall =>
  rw [Bool.not_eq_true', ← Bool.not_eq_true, not_not, List.all_eq_true] at hall
  split
  · next hlong => exact iff_of_false (by simp) fun h => Nat.not_le.2 hlong h.2
  · next hlong =>
    rw [and_iff_right hall, and_iff_left (Nat.not_lt.1 hlong), mkRat_digitsValue, Option.some_inj,
      eq_comm]

theorem amountOf_nil : amountOf [] = 0 := rfl

/-- A text is read as a number if it is a decimal literal, and then as its value. -/
theorem decimal?_eq_some :
    decimal? (String.ofList cs) = some q ↔ Decimal cs q ∧ places cs ≤ maxPlaces := by
  have no_point {ds : List Char} (hds : ∀ d ∈ ds, d.isDigit = true) : '.' ∉ ds :=
    fun h => absurd (hds '.' h) (by decide)
  constructor
  · intro h
    have hwhole : '.' ∉ cs.takeWhile (· != '.') := fun h =>
      absurd (List.all_eq_true.1 List.all_takeWhile _ h) (by decide)
    have htail : ∀ c ∈ (cs.dropWhile (· != '.')).head?, c = '.' := by
      intro c hc
      have hnot := List.head?_dropWhile_not (· != '.') cs
      rw [hc] at hnot
      simpa using hnot
    rw [← List.takeWhile_append_dropWhile (p := (· != '.')) (l := cs)] at h ⊢
    rw [decimal?_append hwhole htail] at h
    obtain ⟨h, hplaces⟩ := h
    refine ⟨?_, hplaces⟩
    generalize cs.takeWhile (· != '.') = whole at *
    generalize cs.dropWhile (· != '.') = tail at *
    obtain ⟨hne, hdigits, rfl⟩ := h
    obtain ⟨hwhole, hfraction⟩ := List.forall_mem_append.1 hdigits
    cases tail with
    | nil =>
      have hne : whole ≠ [] := hne.resolve_right (· rfl)
      rw [List.drop_nil, amountOf_nil, zero_div, add_zero, List.append_nil]
      exact .digits hne hwhole
    | cons c fraction =>
      obtain rfl := htail c rfl
      by_cases hw : whole = []
      · subst hw
        have hne : fraction ≠ [] := hne.resolve_left (· rfl)
        rw [amountOf_nil, zero_add]
        exact .point hne hfraction
      · exact .pointed hw hwhole hfraction
  · rintro ⟨h, hplaces⟩
    cases h with
    | digits hne hds =>
      rw [← List.append_nil cs] at hplaces ⊢
      refine (decimal?_append (no_point hds) (by simp)).2 ⟨⟨.inl hne, ?_, ?_⟩, hplaces⟩
      · rwa [List.drop_nil, List.append_nil]
      · rw [List.drop_nil, amountOf_nil, zero_div, add_zero, List.append_nil]
    | pointed hne hwhole hfraction =>
      refine (decimal?_append (no_point hwhole) (by simp)).2 ⟨⟨.inl hne, ?_, rfl⟩, hplaces⟩
      exact List.forall_mem_append.2 ⟨hwhole, hfraction⟩
    | point hne hfraction =>
      rw [← List.nil_append ('.' :: _)] at hplaces ⊢
      refine (decimal?_append (by simp) (by simp)).2 ⟨⟨.inr hne, hfraction, ?_⟩, hplaces⟩
      rw [amountOf_nil, zero_add]
      rfl

theorem places_digits (h : ∀ d ∈ cs, d.isDigit = true) : places cs = 0 := by
  have hrun : ∀ d ∈ cs, (d != '.') = true :=
    fun d hd => bne_iff_ne.2 fun hpoint => absurd (h d hd) (by rw [hpoint]; decide)
  rw [places, ← List.append_nil cs, (takeWhile_run hrun (by simp)).2, List.length_nil]

end Rational

end Symbolic
