import Symbolic.Proofs.Grammar.Operations

/-!
What is printed is read again: the text of an expression is read as an expression equal to it
(`Vocabulary.parse_text`), if the expression is steady and the names in it are read as what they stand
for there.

The induction is on the depth of the text. Expressions that are printed so are closed under taking
operands and, as the terms of a sum are subtracted without their sign, under taking the negative of
such a term (`Legible.negate`), which is no larger than the term is.
-/

namespace Symbolic

namespace Parser

open Symbolic.Expr Symbolic.Token

variable {v : Vocabulary} {l p : Nat} {text : Expr → String} {e : Expr} {es : List Expr}

/-! Variables and calls. -/

/-- The name at the top is read as what it stands for there: as a variable that is allowed, or as the
function that is called. -/
def Named (v : Vocabulary) : Expr → Prop
  | .var s _ => IsWord s.name ∧ v.callable? s.name = none ∧ v.allowed.all (·.contains s) = true
  | .call f ps b _ =>
    IsWord f ∧ ∃ g, v.callable? f = some (.function g) ∧ g.same ⟨f, ps, b⟩ = true
  | _ => True

theorem reads_var {s : Symbol} {k : Site} (h : Named v (.var s k)) :
    Reads v l p s.name (.var s k) := by
  obtain ⟨hword, hc, ha⟩ := h
  obtain ⟨hspells, hlower⟩ := hword.spec
  exact ⟨_, hspells, .ofVariable hc (congrArg Symbol.mk hlower) ha⟩

theorem reads_named {name args : String} {xs : List Lexeme} (hname : Spells name.toList [.name name])
    (hargs : Spells args.toList xs)
    (hx : Phrase v l p (.name name :: (.opening :: xs ++ [.closing])) e) :
    Reads v l p (name ++ "(" ++ args ++ ")") e := by
  refine ⟨_, ?_, hx⟩
  simp only [String.toList_append, List.append_assoc]
  have hclosed : Spells (args.toList ++ ")".toList) (xs ++ [.closing]) :=
    hargs.append (Spells.nil.symbol rfl) (breaks_symbol rfl)
  exact hname.append (hclosed.symbol rfl) (breaks_symbol rfl)

theorem spells_primitive (f : Primitive) : Spells f.name.toList [.name f.name] := by
  cases f
  all_goals exact spells_word rfl (by decide +kernel) (by decide +kernel)

theorem callable?_primitive (v : Vocabulary) (f : Primitive) :
    v.callable? f.name = some (.primitive f) := by
  have hf : Primitive.ofName? f.name = some f := by cases f <;> decide +kernel
  rw [Vocabulary.callable?, hf]

theorem reads_applied {f : Primitive} (he : Canonical (.apply f e)) (hs : Steady (.apply f e))
    (h : Prints v text e) : Reads v l p (f.name ++ "(" ++ text e ++ ")") (.apply f e) := by
  obtain ⟨xs, hxs, hx⟩ := h
  exact reads_named (spells_primitive f) hxs
    ((Phrase.primitive (callable?_primitive v f) hx).alike he hs.rebuilt)

theorem reads_moreArguments (h : ∀ d ∈ e :: es, Prints v text d) :
    ∃ xs, Spells (", ".intercalate ((e :: es).map text)).toList xs ∧
      MoreArguments v xs (e :: es) := by
  induction es generalizing e with
  | nil =>
    obtain ⟨xs, hxs, hx⟩ := h e List.mem_cons_self
    refine ⟨xs, ?_, .single hx⟩
    rwa [List.map_singleton, String.intercalate_singleton]
  | cons d es ih =>
    obtain ⟨he, hes⟩ := List.forall_mem_cons.1 h
    obtain ⟨xs, hxs, hx⟩ := he
    obtain ⟨ys, hys, hy⟩ := ih hes
    refine ⟨xs ++ .comma :: ys, ?_, .cons hx hy⟩
    rw [List.map_cons, List.map_cons, String.intercalate_cons_cons, ← List.map_cons,
      String.toList_append, String.toList_append, List.append_assoc]
    exact hxs.append ((hys.blank rfl).symbol rfl) (breaks_symbol rfl)

theorem reads_arguments (h : ∀ d ∈ es, Prints v text d) :
    ∃ xs, Spells (", ".intercalate (es.map text)).toList xs ∧ Arguments v xs es := by
  cases es with
  | nil => exact ⟨[], .nil, .nil⟩
  | cons e es =>
    obtain ⟨xs, hxs, hx⟩ := reads_moreArguments h
    exact ⟨xs, hxs, hx.arguments⟩

theorem reads_called {f : String} {ps : List Symbol} {b : Expr} (hv : v.Holds Canonical)
    (he : Canonical (.call f ps b es)) (hn : Named v (.call f ps b es))
    (h : ∀ d ∈ es, Prints v text d) :
    Reads v l p (f ++ "(" ++ ", ".intercalate (es.map text) ++ ")") (.call f ps b es) := by
  obtain ⟨hword, g, hg, hsame⟩ := hn
  obtain ⟨xs, hxs, hx⟩ := reads_arguments h
  exact reads_named hword.spec.1 hxs
    (.function hg hsame (closed_canonical.callable? hv hg) he hx)

/-! Expressions that are printed so that they are read again. -/

/-- The names in the expression are read as what they stand for there. -/
def Spoken (v : Vocabulary) (e : Expr) : Prop := ∀ t, Subtree e t → Named v t

theorem spoken_iff : Spoken v e ↔ Named v e ∧ ∀ d ∈ e.operands, Spoken v d := forall_subtree

structure Legible (v : Vocabulary) (e : Expr) : Prop where
  canonical : Canonical e
  steady : Steady e
  spoken : Spoken v e

theorem Legible.operands (h : Legible v e) : ∀ d ∈ e.operands, Legible v d := fun d hd =>
  ⟨h.canonical.operands d hd, h.steady.operands d hd, (spoken_iff.1 h.spoken).2 d hd⟩

theorem Legible.of_operands (hc : Canonical e) (hs : Settled e) (hn : Named v e)
    (h : ∀ d ∈ e.operands, Legible v d) : Legible v e where
  canonical := hc
  steady := steady_iff.2 ⟨by rw [withOperands_operands hc hs]; exact same_iff.2 (.refl e),
    fun d hd => (h d hd).steady⟩
  spoken := spoken_iff.2 ⟨hn, fun d hd => (h d hd).spoken⟩

theorem legible_const (c : Rat) : Legible v (.const c) :=
  .of_operands (.const c) trivial trivial (List.forall_mem_nil _)

theorem Legible.copied (h : Legible v e) : Legible v e.copied :=
  copied_of (fun s k h => .of_operands (.var s k.next) trivial (spoken_iff.1 h.spoken).1
    (List.forall_mem_nil _)) h

/-- The negative of a term that is subtracted is printed, and it is no larger. -/
theorem Legible.negate (h : Legible v e) (hs : isSubtracted e = true) :
    Legible v (negate e) ∧ (negate e).size ≤ e.size := by
  have hcanon := closed_canonical.negate h.canonical
  have hsettled := settled_of_same h.canonical (h.steady _ .self)
  rcases negate_cases h.canonical hsettled hs with
    ⟨c, d, rfl, heq⟩ | ⟨d, hmem, heq⟩ | ⟨c, es, gs, rfl, heq, hperm, hmerged⟩
  · rw [heq]
    exact ⟨legible_const d, Nat.le_refl _⟩
  · rw [heq]
    exact ⟨(h.operands d hmem).copied, (size_alike (alike_copied d)).trans_le (size_operand hmem).le⟩
  · have hgs : ∀ g ∈ withConst 1 (-c) es, Legible v g :=
      forall_withConst (fun d hd => h.operands d (List.mem_cons_of_mem _ hd)) (legible_const _)
    have hsize : sizes (withConst 1 (-c) es) ≤ sizes (.const c :: es) := by
      rw [withConst]
      split
      · exact Nat.le_add_left _ _
      · rw [sizes_perm (List.perm_append_singleton _ _)]
        exact Nat.le_refl _
    rw [heq] at hcanon ⊢
    refine ⟨.of_operands hcanon hmerged trivial fun g hg => hgs g (hperm.mem_iff.1 hg), ?_⟩
    rw [size, size, sizes_perm hperm]
    exact Nat.succ_le_succ hsize

/-- The text of an expression is read as it, if the depth is no less than the size. -/
theorem Legible.prints (hv : v.Holds Canonical) {n : Nat} (h : Legible v e) (hn : e.size ≤ n) :
    Prints v (textWithin n) e := by
  induction n generalizing e with
  | zero => cases e <;> cases hn
  | succ n ih =>
    have hops : ∀ d ∈ e.operands, Prints v (textWithin n) d := fun d hd => by
      have := size_operand hd
      exact ih (h.operands d hd) (by omega)
    rw [Prints, textWithin]
    cases e with
    | const c => exact reads_rat c
    | var s k => exact reads_var (h.spoken _ .self)
    | sum es =>
      refine reads_sumText h.canonical h.steady fun t ht => ⟨hops t ht, fun hneg => ?_⟩
      obtain ⟨hlegible, hsize⟩ := (h.operands t ht).negate hneg
      have hlt : t.size < (Expr.sum es).size := size_operand ht
      exact ih hlegible (by omega)
    | product fs =>
      refine reads_productText h.canonical h.steady fun f hf => ⟨hops f hf, fun d hd => ?_⟩
      have hf : f ∈ (Expr.product fs).operands := hf
      have hlt := size_operand hf
      have hlt' := size_operand hd
      exact ih ((h.operands f hf).operands d hd) (by omega)
    | pow b p =>
      exact reads_powText h.canonical h.steady (hops b List.mem_cons_self)
        (hops p (List.mem_cons_of_mem _ List.mem_cons_self))
    | apply f d => exact reads_applied h.canonical h.steady (hops d List.mem_cons_self)
    | call f ps b es => exact reads_called hv h.canonical (h.spoken _ .self) hops

/-! Whole texts. -/

theorem Reads.parse {s : String} (h : Reads v l p s e) : ∃ d, v.parse s = .ok d ∧ Alike d e := by
  obtain ⟨xs, hxs, hx⟩ := h
  obtain ⟨ts, hscan, hts⟩ := hxs.scan
  -- a phrase is not empty, so the text is not blank
  have hblank : ¬s.toList.all Text.isBlank = true := fun hb => by
    obtain ⟨t, us, rfl, -⟩ := hx.exists_head hts
    rw [scan, scanFrom_blank (List.all_eq_true.1 hb)] at hscan
    cases hscan
  have hbalanced : checkParentheses [] ts = .ok () := by
    have := hx.balanced [] ts [] hts
    rwa [List.append_nil] at this
  obtain ⟨d, hd, -, hr⟩ := hx.yields hts
  have hread : Yields (expression v (stopOf ts) · 0 (ts ++ [])) (d, []) :=
    hr (Nat.zero_le l) trivial trivial
  rw [List.append_nil] at hread
  refine ⟨d, ?_, hd⟩
  rw [Vocabulary.parse, if_neg hblank, hscan]
  show (checkParentheses [] ts >>= fun _ => ofTokens v ts) = _
  rw [hbalanced]
  exact ofTokens_of_yields hread

end Parser

/-- The text of an expression is read as an expression equal to it. -/
theorem Vocabulary.parse_text {v : Vocabulary} {e : Expr} (hv : v.Holds Constructible)
    (he : Constructible e) (hs : e.Steady) (hn : Parser.Spoken v e) :
    ∃ d, v.parse e.text = .ok d ∧ d.same e = true := by
  have hbodies : v.Holds Expr.Canonical := fun f hf => (hv f hf).holds Expr.closed_canonical
  have hlegible : Parser.Legible v e := ⟨he.holds Expr.closed_canonical, hs, hn⟩
  have hprints : Parser.Prints v (Expr.textWithin (4 * e.size + 8)) e :=
    hlegible.prints hbodies (by omega)
  obtain ⟨d, hd, hde⟩ := hprints.parse
  exact ⟨d, hd, Expr.same_iff.2 hde⟩

open Symbolic.Expr

example : (subtract (ofName "x") (divide (const 3) (productOf [const 2, ofName "y"]))).text =
    "x - 3/(2*y)" := by decide +kernel

def square : Definition := .ofNames "sq" ["x"] (powOf (ofName "x") (const 2))

/-- A vocabulary of the square and of one variable. -/
def squares : Vocabulary := (Vocabulary.empty.define square).allow ["x"]

/-- An expression whose text is `x - 3*x/(2*sq(x))`. -/
def remainder : Expr :=
  subtract (ofName "x")
    (divide (productOf [const 3, ofName "x"]) (productOf [const 2, square.on [ofName "x"]]))

theorem parse_text_remainder : squares.Holds Constructible ∧ Constructible remainder ∧
    remainder.Steady ∧ Parser.Spoken squares remainder ∧
      ∃ d, squares.parse remainder.text = .ok d ∧ d.same remainder = true := by
  have hx : Constructible (ofName "x") := .var _ _
  have hsquare : Constructible square.body := .pow hx (.const 2)
  have hone : ∀ d ∈ [ofName "x"], Constructible d := List.forall_mem_singleton.2 hx
  have hbodies : squares.Holds Constructible := List.forall_mem_singleton.2 hsquare
  have he : Constructible remainder := by
    refine closed_constructible.subtract hx (closed_constructible.divide ?_ ?_)
    · exact .product (Closed.forall_pair (.const 3) hx)
    · exact .product (Closed.forall_pair (.const 2) (.callOf rfl hsquare hone))
  have hs : remainder.Steady := by decide +kernel
  have htree : remainder = sum [ofName "x", product [const (-3 / 2), ofName "x",
      pow (square.on [ofName "x"]) (const (-1))]] := by decide +kernel
  have hvar : Parser.Spoken squares (ofName "x") := by
    refine Parser.spoken_iff.2
      ⟨⟨(Token.spells_word rfl ?_ ?_).isWord, rfl, ?_⟩, List.forall_mem_nil _⟩
    all_goals decide +kernel
  have hcall : Parser.Spoken squares (square.on [ofName "x"]) := by
    refine Parser.spoken_iff.2
      ⟨⟨(Token.spells_word rfl ?_ ?_).isWord, square, rfl, ?_⟩, List.forall_mem_singleton.2 hvar⟩
    all_goals decide +kernel
  have hconst (c : Rat) : Parser.Spoken squares (const c) := (Parser.legible_const c).spoken
  have hpow : Parser.Spoken squares (pow (square.on [ofName "x"]) (const (-1))) :=
    Parser.spoken_iff.2 ⟨trivial, Closed.forall_pair hcall (hconst _)⟩
  have hn : Parser.Spoken squares remainder := by
    rw [htree]
    refine Parser.spoken_iff.2 ⟨trivial, Closed.forall_pair hvar ?_⟩
    exact Parser.spoken_iff.2 ⟨trivial, by simpa [operands] using ⟨hconst _, hvar, hpow⟩⟩
  exact ⟨hbodies, he, hs, hn, squares.parse_text hbodies he hs hn⟩

end Symbolic
