import Mathlib.Data.List.Basic
import Symbolic.Proofs.Grammar.Characters
import Symbolic.Proofs.Rational.Decimal

/-!
A text in pieces: blanks, runs of digits and points, runs that start a name and go on with it, and
other characters. Each run is as long as it can be, so a text has just one splitting
(`exists_splits`, `Splits.unique`), and it is scanned piece by piece: blanks are passed over, a piece
that reads as a lexeme is a token that takes up the bytes of the piece (`Piece.Leads.scan_reads`),
and the scan fails at a piece off which nothing is read (`Splits.scan_error`): it is no literal and no
symbol, or it is a literal with more digits behind its point than are counted.
-/

namespace Symbolic

open Symbolic.Token

/-- What is scanned at once. -/
inductive Piece where
  | blank (c : Char)
  | number (run : List Char)
  | name (run : List Char)
  | other (c : Char)

namespace Piece

def text : Piece → List Char
  | blank c | other c => [c]
  | number run | name run => run

/-- The piece stands at the head of a text that goes on with `rest`. A run takes all that belongs to
it: `rest` does not go on with it. -/
inductive Leads : Piece → List Char → Prop
  | blank {c : Char} {rest : List Char} (hc : Text.isBlank c = true) : Leads (.blank c) rest
  | number {run rest : List Char} (hne : run ≠ []) (hrun : ∀ c ∈ run, isNumberChar c = true)
      (hrest : ∀ d ∈ rest.head?, isNumberChar d = false) : Leads (.number run) rest
  | name {c : Char} {run rest : List Char} (hc : startsName c = true)
      (hrun : ∀ d ∈ run, isNameChar d = true) (hrest : ∀ d ∈ rest.head?, isNameChar d = false) :
      Leads (.name (c :: run)) rest
  | other {c : Char} {rest : List Char} (hblank : Text.isBlank c = false)
      (hnumber : isNumberChar c = false) (hname : startsName c = false) : Leads (.other c) rest

/-- What the text of a piece says: decimal literals are numbers, names are put into lower case, and
some characters are a token by themselves. -/
inductive Reads : Piece → Lexeme → Prop
  | number {run : List Char} {q : Rat} (h : Rational.Decimal run q)
      (hplaces : Rational.places run ≤ Rational.maxPlaces) : Reads (.number run) (.number q)
  | name (run : List Char) : Reads (.name run) (.name (Text.lowercase (String.ofList run)))
  | other {c : Char} {x : Lexeme} (h : ofChar? c = some x) : Reads (.other c) x

/-- A run of digits and points that is no decimal literal, or a character that starts no token. -/
inductive Illegible : Piece → Prop
  | number {run : List Char} (h : ∀ q, ¬ Rational.Decimal run q) : Illegible (.number run)
  | other {c : Char} (h : ofChar? c = none) : Illegible (.other c)

/-- A run with more characters behind its first point than are counted. -/
inductive Overlong : Piece → Prop
  | number {run : List Char} (h : Rational.maxPlaces < Rational.places run) : Overlong (.number run)

/-- Nothing is read off the piece. -/
def Refused (p : Piece) : Prop := p.Illegible ∨ p.Overlong

variable {p : Piece} {x : Lexeme}

theorem not_refused_blank (c : Char) : ¬ (Piece.blank c).Refused := by
  rintro (h | h) <;> cases h

theorem Reads.not_refused (h : p.Reads x) : ¬ p.Refused := by
  intro hp
  cases h with
  | number hq hplaces =>
    obtain hnone | hlong := hp
    · cases hnone with
      | number hnone => exact hnone _ hq
    · cases hlong with
      | number hlong => exact Nat.not_le.2 hlong hplaces
  | name _ => obtain h | h := hp <;> cases h
  | other hx =>
    obtain hnone | hlong := hp
    · cases hnone with
      | other hnone => cases hnone.symm.trans hx
    · cases hlong

theorem Reads.of_name {s : String} (h : p.Reads (.name s)) :
    ∃ run, p = .name run ∧ s = Text.lowercase (String.ofList run) := by
  generalize hx : Lexeme.name s = x at h
  cases h with
  | number _ _ => cases hx
  | name run => exact ⟨run, rfl, Lexeme.name.inj hx⟩
  | other h =>
    subst hx
    unfold ofChar? at h
    split at h <;> cases h

theorem blank_or_reads_or_refused (p : Piece) :
    (∃ c, p = .blank c) ∨ (∃ x, p.Reads x) ∨ p.Refused := by
  cases p with
  | blank c => exact .inl ⟨c, rfl⟩
  | number run =>
    by_cases h : ∃ q, Rational.Decimal run q
    · obtain ⟨q, hq⟩ := h
      obtain hlt | hle := Nat.lt_or_ge Rational.maxPlaces (Rational.places run)
      · exact .inr (.inr (.inr (.number hlt)))
      · exact .inr (.inl ⟨_, .number hq hle⟩)
    · exact .inr (.inr (.inl (.number (not_exists.1 h))))
  | name run => exact .inr (.inl ⟨_, .name run⟩)
  | other c =>
    cases h : ofChar? c with
    | none => exact .inr (.inr (.inl (.other h)))
    | some x => exact .inr (.inl ⟨x, .other h⟩)

end Piece

/-- A text split into pieces, from left to right. -/
inductive Splits : List Char → List Piece → Prop
  | nil : Splits [] []
  | cons {p : Piece} {rest : List Char} {ps : List Piece} (hp : p.Leads rest)
      (hps : Splits rest ps) : Splits (p.text ++ rest) (p :: ps)

/-! One splitting. -/

variable {c : Char} {cs rest : List Char} {p q : Piece} {ps qs : List Piece} {start : Nat}

theorem head?_dropWhile {α : Type} (f : α → Bool) (xs : List α) :
    ∀ x ∈ (xs.dropWhile f).head?, f x = false := by
  intro x hx
  have hnot := List.head?_dropWhile_not f xs
  rwa [hx] at hnot

/-- The piece at the head of a text, and what follows it. -/
def Piece.first (c : Char) (cs : List Char) : Piece × List Char :=
  if Text.isBlank c then (.blank c, cs)
  else if isNumberChar c then
    (.number (c :: cs.takeWhile isNumberChar), cs.dropWhile isNumberChar)
  else if startsName c then (.name (c :: cs.takeWhile isNameChar), cs.dropWhile isNameChar)
  else (.other c, cs)

theorem Piece.first_spec (c : Char) (cs : List Char) :
    (Piece.first c cs).1.text ++ (Piece.first c cs).2 = c :: cs ∧
      (Piece.first c cs).1.Leads (Piece.first c cs).2 := by
  have hrun (f : Char → Bool) : c :: cs.takeWhile f ++ cs.dropWhile f = c :: cs :=
    congrArg (c :: ·) List.takeWhile_append_dropWhile
  rw [Piece.first]
  split
  · next hblank => exact ⟨rfl, .blank hblank⟩
  next hblank =>
  split
  · next hnumber =>
    refine ⟨hrun _, .number (List.cons_ne_nil _ _) ?_ (head?_dropWhile _ _)⟩
    exact List.forall_mem_cons.2 ⟨hnumber, List.all_eq_true.1 List.all_takeWhile⟩
  next hnumber =>
  split
  · next hname =>
    exact ⟨hrun _, .name hname (List.all_eq_true.1 List.all_takeWhile) (head?_dropWhile _ _)⟩
  · next hname =>
    exact ⟨rfl, .other (Bool.eq_false_iff.2 hblank) (Bool.eq_false_iff.2 hnumber)
      (Bool.eq_false_iff.2 hname)⟩

theorem Piece.Leads.first_eq (h : p.Leads rest) (heq : p.text ++ rest = c :: cs) :
    Piece.first c cs = (p, rest) := by
  cases h with
  | blank hblank =>
    obtain ⟨rfl, rfl⟩ := List.cons.inj heq
    exact if_pos hblank
  | @number run _ hne hrun hrest =>
    obtain ⟨d, run, rfl⟩ := List.exists_cons_of_ne_nil hne
    rw [Piece.text, List.cons_append] at heq
    obtain ⟨rfl, rfl⟩ := List.cons.inj heq
    obtain ⟨hd, hrun⟩ := List.forall_mem_cons.1 hrun
    obtain ⟨htake, hdrop⟩ := takeWhile_run hrun hrest
    rw [Piece.first, (isNumberChar_spec hd).1, if_neg Bool.false_ne_true,
      if_pos hd, htake, hdrop]
  | name hc hrun hrest =>
    rw [Piece.text, List.cons_append] at heq
    obtain ⟨rfl, rfl⟩ := List.cons.inj heq
    obtain ⟨-, hblank, hnumber⟩ := startsName_spec hc
    obtain ⟨htake, hdrop⟩ := takeWhile_run hrun hrest
    rw [Piece.first, hblank, hnumber, if_neg Bool.false_ne_true, if_neg Bool.false_ne_true,
      if_pos hc, htake, hdrop]
  | other hblank hnumber hname =>
    rw [Piece.text, List.singleton_append] at heq
    obtain ⟨rfl, rfl⟩ := List.cons.inj heq
    rw [Piece.first, hblank, hnumber, hname, if_neg Bool.false_ne_true, if_neg Bool.false_ne_true,
      if_neg Bool.false_ne_true]

theorem Piece.Leads.text_ne_nil (h : p.Leads rest) : p.text ≠ [] := by
  cases h with
  | blank _ | other _ _ _ | name _ _ _ => exact List.cons_ne_nil _ _
  | number hne _ _ => exact hne

theorem exists_splits (cs : List Char) : ∃ ps, Splits cs ps := by
  induction hn : cs.length using Nat.strong_induction_on generalizing cs with
  | _ n ih =>
    cases cs with
    | nil => exact ⟨[], .nil⟩
    | cons c cs =>
      obtain ⟨htext, hleads⟩ := Piece.first_spec c cs
      have hlt : (Piece.first c cs).2.length < n := by
        have hpos := List.length_pos_iff.2 hleads.text_ne_nil
        have hlen := congrArg List.length htext
        rw [List.length_append] at hlen
        omega
      obtain ⟨ps, hps⟩ := ih _ hlt _ rfl
      have hsplits := Splits.cons hleads hps
      rw [htext] at hsplits
      exact ⟨_, hsplits⟩

theorem Splits.unique (h : Splits cs ps) (h' : Splits cs qs) : ps = qs := by
  induction h generalizing qs with
  | nil =>
    generalize hnil : ([] : List Char) = cs at h'
    cases h' with
    | nil => rfl
    | cons hq _ => exact absurd (List.append_eq_nil_iff.1 hnil.symm).1 hq.text_ne_nil
  | @cons p rest ps hp hps ih =>
    obtain ⟨c, cs, hcs⟩ := List.exists_cons_of_ne_nil hp.text_ne_nil
    generalize htext : p.text ++ rest = text at h'
    cases h' with
    | nil => exact absurd (List.append_eq_nil_iff.1 htext).1 hp.text_ne_nil
    | @cons q rest' qs hq hqs =>
      have hfirst : p.text ++ rest = c :: (cs ++ rest) := by rw [hcs, List.cons_append]
      have hpq := (hp.first_eq hfirst).symm.trans (hq.first_eq (htext.symm.trans hfirst))
      obtain ⟨rfl, rfl⟩ := Prod.mk.inj hpq
      rw [ih hqs]

/-! The scan of a piece. -/

theorem Piece.Leads.scan_blank (h : (Piece.blank c).Leads rest) :
    scanFrom start (c :: rest) = scanFrom (start + c.utf8Size) rest := by
  cases h with
  | blank hc => rw [scanFrom, if_pos hc]

theorem Piece.Leads.scan_number {run : List Char} (h : (Piece.number run).Leads rest) :
    scanFrom start (run ++ rest) =
      match Rational.decimal? (String.ofList run) with
      | none =>
        .error (.malformed (.badNumber (String.ofList run)) (some ⟨start, start + byteLength run⟩))
      | some q => (scanFrom (start + byteLength run) rest).map
          (⟨.number q, ⟨start, start + byteLength run⟩⟩ :: ·) := by
  cases h with
  | number hne hrun hrest =>
    obtain ⟨c, run, rfl⟩ := List.exists_cons_of_ne_nil hne
    obtain ⟨hc, hrun⟩ := List.forall_mem_cons.1 hrun
    obtain ⟨htake, hdrop⟩ := takeWhile_run hrun hrest
    rw [List.cons_append, scanFrom, (isNumberChar_spec hc).1, hc, if_neg Bool.false_ne_true,
      if_pos rfl, htake, hdrop]
    simp only
    cases Rational.decimal? (String.ofList (c :: run)) with
    | none => rfl
    | some q => cases scanFrom (start + byteLength (c :: run)) rest <;> rfl

theorem Piece.Leads.scan_name {run : List Char} (h : (Piece.name run).Leads rest) :
    scanFrom start (run ++ rest) = (scanFrom (start + byteLength run) rest).map
      (⟨.name (Text.lowercase (String.ofList run)), ⟨start, start + byteLength run⟩⟩ :: ·) := by
  cases h with
  | @name c run _ hc hrun hrest =>
    obtain ⟨htake, hdrop⟩ := takeWhile_run hrun hrest
    obtain ⟨-, hblank, hnumber⟩ := startsName_spec hc
    rw [List.cons_append, scanFrom, hblank, hnumber, if_neg Bool.false_ne_true,
      if_neg Bool.false_ne_true, if_pos hc, htake, hdrop]
    simp only
    cases scanFrom (start + byteLength (c :: run)) rest <;> rfl

theorem Piece.Leads.scan_other (h : (Piece.other c).Leads rest) :
    scanFrom start (c :: rest) =
      match ofChar? c with
      | none => .error (.malformed (.badCharacter c) (some ⟨start, start + c.utf8Size⟩))
      | some x => (scanFrom (start + c.utf8Size) rest).map
          (⟨x, ⟨start, start + c.utf8Size⟩⟩ :: ·) := by
  cases h with
  | other hblank hnumber hname =>
    rw [scanFrom, hblank, hnumber, hname, if_neg Bool.false_ne_true, if_neg Bool.false_ne_true,
      if_neg Bool.false_ne_true]
    simp only
    cases ofChar? c with
    | none => rfl
    | some x => cases scanFrom (start + c.utf8Size) rest <;> rfl

/-- A piece that reads as a lexeme is one token, and the scan goes on behind it. -/
theorem Piece.Leads.scan_reads {x : Lexeme} (h : p.Leads rest) (hx : p.Reads x) :
    scanFrom start (p.text ++ rest) = (scanFrom (start + byteLength p.text) rest).map
      (⟨x, ⟨start, start + byteLength p.text⟩⟩ :: ·) := by
  cases hx with
  | number hq hplaces =>
    rw [Piece.text, h.scan_number, Rational.decimal?_eq_some.2 ⟨hq, hplaces⟩]
  | name run => exact h.scan_name
  | other hx =>
    rw [Piece.text, List.singleton_append, h.scan_other, hx]
    rfl

/-- The scan ends at a piece off which nothing is read, and says so. -/
theorem Piece.Leads.scan_refused (h : p.Leads rest) (hp : p.Refused) (start : Nat) :
    ∃ fault, scanFrom start (p.text ++ rest) =
      .error (.malformed fault (some ⟨start, start + byteLength p.text⟩)) := by
  have number {run : List Char} (h : (Piece.number run).Leads rest)
      (hrun : ¬ ∃ q, Rational.Decimal run q ∧ Rational.places run ≤ Rational.maxPlaces) :
      ∃ fault, scanFrom start (run ++ rest) =
        .error (.malformed fault (some ⟨start, start + byteLength run⟩)) := by
    have hvalue : Rational.decimal? (String.ofList run) = none :=
      Option.eq_none_iff_forall_ne_some.2 fun q hq => hrun ⟨q, Rational.decimal?_eq_some.1 hq⟩
    refine ⟨.badNumber (String.ofList run), ?_⟩
    rw [h.scan_number, hvalue]
  obtain hnone | hlong := hp
  · cases hnone with
    | number hnone => exact number h fun ⟨q, hq, _⟩ => hnone q hq
    | @other c hnone =>
      refine ⟨.badCharacter c, ?_⟩
      rw [Piece.text, List.singleton_append, h.scan_other, hnone]
      rfl
  · cases hlong with
    | number hlong => exact number h fun ⟨_, _, hle⟩ => Nat.not_le.2 hlong hle

/-- The scan fails if nothing is read off one of the pieces. -/
theorem Splits.scan_error (h : Splits cs ps) (hp : ∃ p ∈ ps, p.Refused) (start : Nat) :
    ∃ e, scanFrom start cs = .error e := by
  induction h generalizing start with
  | nil =>
    obtain ⟨p, hp, -⟩ := hp
    cases hp
  | @cons p rest ps hleads _ ih =>
    obtain ⟨q, hmem, hq⟩ := hp
    -- whatever stands at the head and is read, the scan gets to what follows it
    have hlater (hhead : ¬ p.Refused) : ∃ q ∈ ps, q.Refused := by
      rcases List.mem_cons.1 hmem with rfl | hmem
      · exact absurd hq hhead
      · exact ⟨q, hmem, hq⟩
    obtain ⟨c, rfl⟩ | ⟨x, hx⟩ | hrefused := p.blank_or_reads_or_refused
    · obtain ⟨e, he⟩ := ih (hlater (Piece.not_refused_blank c)) (start + c.utf8Size)
      exact ⟨e, hleads.scan_blank.trans he⟩
    · obtain ⟨e, he⟩ := ih (hlater hx.not_refused) (start + byteLength p.text)
      refine ⟨e, (hleads.scan_reads hx).trans ?_⟩
      rw [he]
      rfl
    · obtain ⟨fault, hfault⟩ := hleads.scan_refused hrefused start
      exact ⟨_, hfault⟩

end Symbolic
