import Symbolic.Proofs.Grammar.Layout
import Symbolic.Proofs.Grammar.Lowercase

/-!
How a text that is put together of pieces is scanned. A piece `Spells` its lexemes if it is scanned to
them whatever it stands before, as long as that does not go on with the number or name at its end.
Names that are one token by themselves are that token anywhere (`IsWord.spec`), for they are the runs
of name characters that are in lower case (`isWord_iff`); and the digits of a number are read as the
number (`spells_nat`).
-/

namespace Symbolic

namespace Token

variable {cs ds : List Char} {xs ys : List Lexeme}

/-- A number or a name that ends before the text does not go on into it. -/
def Breaks (cs : List Char) : Prop :=
  ∀ c ∈ cs.head?, isNumberChar c = false ∧ isNameChar c = false

/-- The text is scanned to the lexemes, whatever it stands before. -/
def Spells (cs : List Char) (xs : List Lexeme) : Prop :=
  ∀ start rest, Breaks rest → ∃ ts stop, ts.map Token.lexeme = xs ∧
    scanFrom start (cs ++ rest) = (scanFrom stop rest).map (ts ++ ·)

theorem breaks_nil : Breaks [] := by
  intro c hc
  cases hc

theorem breaks_cons {c : Char} (h : isNumberChar c = false ∧ isNameChar c = false) :
    Breaks (c :: cs) := by
  intro d hd
  cases hd
  exact h

theorem Breaks.append (h : Breaks cs) (h' : Breaks ds) : Breaks (cs ++ ds) := by
  cases cs with
  | nil => exact h'
  | cons c cs => exact breaks_cons (h c rfl)

theorem Spells.nil : Spells [] [] := by
  intro start rest _
  refine ⟨[], start, rfl, ?_⟩
  rw [List.nil_append]
  cases scanFrom start rest <;> rfl

theorem Spells.append (h : Spells cs xs) (h' : Spells ds ys) (hb : Breaks ds) :
    Spells (cs ++ ds) (xs ++ ys) := by
  intro start rest hr
  obtain ⟨ts, mid, hts, he⟩ := h start (ds ++ rest) (hb.append hr)
  obtain ⟨us, stop, hus, he'⟩ := h' mid rest hr
  refine ⟨ts ++ us, stop, by rw [List.map_append, hts, hus], ?_⟩
  rw [List.append_assoc, he, he']
  cases scanFrom stop rest with
  | error e => rfl
  | ok ws => exact congrArg Except.ok (List.append_assoc _ _ _).symm

theorem Spells.blank {c : Char} (hc : Text.isBlank c = true) (h : Spells cs xs) :
    Spells (c :: cs) xs := by
  intro start rest hr
  obtain ⟨ts, stop, hts, he⟩ := h (start + c.utf8Size) rest hr
  refine ⟨ts, stop, hts, ?_⟩
  rw [List.cons_append, (Piece.Leads.blank hc).scan_blank]
  exact he

theorem breaks_symbol {c : Char} {x : Lexeme} (h : ofChar? c = some x) : Breaks (c :: cs) :=
  breaks_cons ⟨(ofChar?_spec h).2.1, (ofChar?_spec h).2.2.2⟩

theorem breaks_blank {c : Char} (h : Text.isBlank c = true) : Breaks (c :: cs) :=
  breaks_cons (isBlank_spec h)

theorem Spells.piece {p : Piece} {x : Lexeme} (hp : ∀ rest, Breaks rest → p.Leads (cs ++ rest))
    (hx : p.Reads x) (h : Spells cs xs) : Spells (p.text ++ cs) (x :: xs) := by
  intro start rest hr
  obtain ⟨ts, stop, hts, he⟩ := h (start + byteLength p.text) rest hr
  refine ⟨⟨x, ⟨start, start + byteLength p.text⟩⟩ :: ts, stop, by rw [List.map_cons, hts], ?_⟩
  rw [List.append_assoc, (hp rest hr).scan_reads hx, he]
  cases scanFrom stop rest <;> rfl

theorem spells_piece {p : Piece} {x : Lexeme} (hp : ∀ rest, Breaks rest → p.Leads rest)
    (hx : p.Reads x) : Spells p.text [x] := by
  rw [← List.append_nil p.text]
  exact Spells.nil.piece hp hx

theorem Spells.symbol {c : Char} {x : Lexeme} (hc : ofChar? c = some x) (h : Spells cs xs) :
    Spells (c :: cs) (x :: xs) := by
  obtain ⟨hb, hn, hs, -⟩ := ofChar?_spec hc
  exact h.piece (p := .other c) (fun _ _ => .other hb hn hs) (.other hc)

theorem spells_run {c : Char} (hs : startsName c = true) (hcs : ∀ d ∈ cs, isNameChar d = true) :
    Spells (c :: cs) [.name (Text.lowercase (String.ofList (c :: cs)))] :=
  spells_piece (p := .name (c :: cs)) (fun _ hr => .name hs hcs fun d hd => (hr d hd).2) (.name _)

/-! Numbers. -/

theorem spells_nat (n : Nat) : Spells (toString n).toList [.number n] := by
  have htext : (toString n).toList = Nat.toDigits 10 n := Nat.toList_repr
  have hvalue : Nat.ofDigitChars 10 (Nat.toDigits 10 n) 0 = n :=
    Nat.ofDigitChars_toDigits (by decide) (by decide)
  have hdigits : ∀ c ∈ Nat.toDigits 10 n, c.isDigit = true := fun c hc =>
    Nat.isDigit_of_mem_toDigits (by decide) (by decide) hc
  have hdecimal : Rational.Decimal (Nat.toDigits 10 n) n := by
    have h := Rational.Decimal.digits Nat.toDigits_ne_nil hdigits
    rwa [Rational.amountOf, hvalue] at h
  have hnumber : ∀ c ∈ Nat.toDigits 10 n, isNumberChar c = true := by
    intro c hc
    rw [isNumberChar, hdigits c hc, Bool.true_or]
  have hplaces : Rational.places (Nat.toDigits 10 n) ≤ Rational.maxPlaces := by
    rw [Rational.places_digits hdigits]
    exact Nat.zero_le _
  rw [htext]
  exact spells_piece (p := .number (Nat.toDigits 10 n))
    (fun _ hr => .number Nat.toDigits_ne_nil hnumber fun d hd => (hr d hd).1)
    (.number hdecimal hplaces)

/-! Names. -/

/-- The text is scanned to one name, itself. -/
def IsWord (s : String) : Prop := ∃ span, scan s = .ok [⟨.name s, span⟩]

theorem scanFrom_blank {start : Nat} (h : ∀ c ∈ cs, Text.isBlank c = true) :
    scanFrom start cs = .ok [] := by
  induction cs generalizing start with
  | nil => rw [scanFrom]
  | cons c cs ih =>
    obtain ⟨hc, hcs⟩ := List.forall_mem_cons.1 h
    rw [scanFrom, if_pos hc]
    exact ih hcs

theorem Spells.scan {s : String} (h : Spells s.toList xs) :
    ∃ ts, Token.scan s = .ok ts ∧ ts.map Token.lexeme = xs := by
  obtain ⟨ts, stop, hts, hscan⟩ := h 0 [] breaks_nil
  refine ⟨ts, ?_, hts⟩
  rw [Token.scan, ← List.append_nil s.toList, hscan, scanFrom]
  exact congrArg Except.ok (List.append_nil ts)

theorem Spells.isWord {s : String} (h : Spells s.toList [.name s]) : IsWord s := by
  obtain ⟨ts, hscan, hts⟩ := h.scan
  obtain ⟨⟨_, span⟩, us, rfl, rfl, hnil⟩ := List.map_eq_cons_iff.1 hts
  rw [List.map_eq_nil_iff.1 hnil] at hscan
  exact ⟨span, hscan⟩

/-- A text is one name just if it is a run that starts a name and goes on with one, in lower case. -/
theorem isWord_iff {s : String} : IsWord s ↔ ∃ c run, s.toList = c :: run ∧ startsName c = true ∧
    (∀ d ∈ run, isNameChar d = true) ∧ Text.lowercase s = s := by
  constructor
  · rintro ⟨span, h⟩
    obtain ⟨before, p, after, htext, hp, hx, hblank⟩ := (faithful_of_scan h).of_singleton
    obtain ⟨run, rfl, hlower⟩ := hx.of_name
    cases hp with
    | @name c run _ hc hrun _ =>
      have hnames : ∀ d ∈ c :: run, isNameChar d = true :=
        List.forall_mem_cons.2 ⟨(startsName_spec hc).1, hrun⟩
      -- a name has no blanks, so none stand around this one
      have hnone : ∀ d ∈ s.toList, Text.isBlank d = false := by
        rw [hlower, Text.lowercase, String.toList_ofList, String.toList_ofList]
        exact Text.not_blank_lowerAfter hnames
      have hnil : before ++ after = [] := by
        refine List.eq_nil_iff_forall_not_mem.2 fun d hd => ?_
        have hmem : d ∈ s.toList := by
          rw [htext, List.mem_append, List.mem_append]
          exact (List.mem_append.1 hd).imp_right .inr
        exact Bool.false_ne_true ((hnone d hmem).symm.trans (hblank d hd))
      obtain ⟨rfl, rfl⟩ := List.append_eq_nil_iff.1 hnil
      rw [List.nil_append, List.append_nil, Piece.text] at htext
      rw [← htext, String.ofList_toList] at hlower
      exact ⟨c, run, htext, hc, hrun, hlower.symm⟩
  · rintro ⟨c, run, hs, hc, hrun, hlower⟩
    have hspells := spells_run hc hrun
    rw [← hs, String.ofList_toList, hlower] at hspells
    exact hspells.isWord

/-- A text that is one name is that name anywhere. -/
theorem IsWord.spec {s : String} (h : IsWord s) :
    Spells s.toList [.name s] ∧ Text.lowercase s = s := by
  obtain ⟨c, run, hs, hc, hrun, hlower⟩ := isWord_iff.1 h
  have hspells := spells_run hc hrun
  rw [← hs, String.ofList_toList, hlower] at hspells
  exact ⟨hspells, hlower⟩

/-- A text that starts a name, goes on with one and is in lower case. -/
theorem spells_word {s : String} {c : Char} (hs : s.toList = c :: cs)
    (h : Text.isBlank c = false ∧ isNumberChar c = false ∧ startsName c = true ∧
      cs.all isNameChar = true) (hl : Text.lowercase s = s) : Spells s.toList [.name s] :=
  (isWord_iff.2 ⟨c, cs, hs, h.2.2.1, List.all_eq_true.1 h.2.2.2, hl⟩).spec.1

end Token

end Symbolic
