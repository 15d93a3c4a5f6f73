import Symbolic.Proofs.Grammar.Steps

/-!
What the readers give, in as many steps as it takes (`Parser.Yields`): one lemma for each way in which
a reader calls others. All of a text is read if its tokens yield an expression and nothing is left
(`Parser.ofTokens_of_yields`).
-/

namespace Symbolic.Parser

variable {v : Vocabulary} {stop least : Nat}

/-- With enough steps the reader gives `a`. -/
def Yields {α : Type} (f : Nat → Except Error α) (a : α) : Prop := ∃ n, ∀ m, n ≤ m → f m = .ok a

section Yields

variable {α β γ : Type} {a : α} {b : β} {c : γ} {f : Nat → Except Error α} {g : Nat → Except Error β}
  {h : Nat → Except Error γ}

theorem yields_of_succ (hf : ∀ n, f (n + 1) = .ok a) : Yields f a := by
  refine ⟨1, fun m hm => ?_⟩
  obtain ⟨k, rfl⟩ : ∃ k, m = k + 1 := ⟨m - 1, by omega⟩
  exact hf k

theorem Yields.step (hf : Yields f a) (hg : ∀ n, f n = .ok a → g (n + 1) = .ok b) : Yields g b := by
  obtain ⟨n, hn⟩ := hf
  refine ⟨n + 1, fun m hm => ?_⟩
  obtain ⟨k, rfl⟩ : ∃ k, m = k + 1 := ⟨m - 1, by omega⟩
  exact hg k (hn k (by omega))

theorem Yields.step₂ (hf : Yields f a) (hg : Yields g b)
    (hh : ∀ n, f n = .ok a → g n = .ok b → h (n + 1) = .ok c) : Yields h c := by
  obtain ⟨m, hm⟩ := hf
  obtain ⟨n, hn⟩ := hg
  refine ⟨max m n + 1, fun k hk => ?_⟩
  obtain ⟨k, rfl⟩ : ∃ l, k = l + 1 := ⟨k - 1, by omega⟩
  exact hh k (hm k (by omega)) (hn k (by omega))

end Yields

/-- No operator of precedence `p` or more comes first. -/
def Halts (p : Nat) : List Token → Prop
  | ⟨.operator op, _⟩ :: _ => op.precedence < p
  | _ => True

theorem Halts.imp {p q : Nat} {ts : List Token} (h : Halts p ts)
    (hpq : ∀ op : Operator, op.precedence < p → op.precedence < q) : Halts q ts := by
  unfold Halts at *
  split
  · exact hpq _ h
  · trivial

theorem Halts.mono {p q : Nat} {ts : List Token} (h : Halts p ts) (hpq : p ≤ q) : Halts q ts :=
  h.imp fun _ hop => Nat.lt_of_lt_of_le hop hpq

/-- Reading goes no further where no operator that binds tightly enough follows. -/
theorem yields_halt {left : Expr} {ts : List Token} (h : Halts least ts) :
    Yields (continuation v stop · least left ts) (left, ts) := by
  refine yields_of_succ fun n => ?_
  unfold continuation
  split
  · exact if_pos h
  · rfl

theorem yields_operator {op : Operator} {span : Span} {left right : Expr} {ts us : List Token}
    {r : Expr × List Token} (hop : least ≤ op.precedence)
    (hr : Yields (expression v stop · op.rightPrecedence ts) (right, us))
    (h : Yields (continuation v stop · least (op.apply left right) us) r) :
    Yields (continuation v stop · least left (⟨.operator op, span⟩ :: ts)) r := by
  refine hr.step₂ h fun n hr h => ?_
  rw [continuation, if_neg (Nat.not_lt.2 hop), hr]
  exact h

theorem yields_expression {d : Expr} {ts us : List Token} {r : Expr × List Token}
    (hd : Yields (operand v stop · ts) (d, us))
    (h : Yields (continuation v stop · least d us) r) :
    Yields (expression v stop · least ts) r := by
  refine hd.step₂ h fun n hd h => ?_
  rw [expression, hd]
  exact h

theorem yields_name {name : String} {s : Span} {d : Expr} {ts : List Token}
    (hf : v.callable? name = none) (hd : v.variableOf name s = .ok d) :
    Yields (operand v stop · (⟨.name name, s⟩ :: ts)) (d, ts) := by
  refine yields_of_succ fun n => ?_
  rw [operand, hf]
  show (v.variableOf name s >>= _) = _
  rw [hd]
  rfl

theorem yields_signed {d : Expr} {span : Span} {ts us : List Token}
    (hd : Yields (expression v stop · signPrecedence ts) (d, us)) :
    Yields (operand v stop · (⟨.operator .minus, span⟩ :: ts)) (Expr.negate d, us) := by
  refine hd.step fun n hd => ?_
  rw [operand, hd]
  rfl

theorem yields_unsigned {d : Expr} {span : Span} {ts us : List Token}
    (hd : Yields (expression v stop · signPrecedence ts) (d, us)) :
    Yields (operand v stop · (⟨.operator .plus, span⟩ :: ts)) (d, us) := by
  refine hd.step fun n hd => ?_
  rw [operand]
  exact hd

theorem yields_enclosed {d : Expr} {s s' : Span} {t : Token} {ts us : List Token}
    (ht : t.lexeme ≠ .closing)
    (hd : Yields (expression v stop · 0 (t :: ts)) (d, ⟨.closing, s'⟩ :: us)) :
    Yields (operand v stop · (⟨.opening, s⟩ :: t :: ts)) (d, us) := by
  refine hd.step fun n hd => ?_
  rw [operand, hd]
  · rfl
  · rintro span ts h
    cases h
    exact ht rfl

theorem yields_last {d : Expr} {s : Span} {ts us : List Token}
    (hd : Yields (expression v stop · 0 ts) (d, ⟨.closing, s⟩ :: us)) :
    Yields (moreArguments v stop · ts) ([d], ⟨.closing, s⟩ :: us) := by
  refine hd.step fun n hd => ?_
  rw [moreArguments, hd]
  rfl

theorem yields_comma {d : Expr} {ds : List Expr} {s : Span} {ts us ws : List Token}
    (hd : Yields (expression v stop · 0 ts) (d, ⟨.comma, s⟩ :: us))
    (hds : Yields (moreArguments v stop · us) (ds, ws)) :
    Yields (moreArguments v stop · ts) (d :: ds, ws) := by
  refine hd.step₂ hds fun n hd hds => ?_
  rw [moreArguments, hd]
  show (moreArguments v stop n us >>= _) = _
  rw [hds]
  rfl

theorem yields_arguments {ds : List Expr} {t : Token} {ts us : List Token}
    (ht : t.lexeme ≠ .closing) (hds : Yields (moreArguments v stop · (t :: ts)) (ds, us)) :
    Yields (arguments v stop · (t :: ts)) (ds, us) := by
  refine hds.step fun n hds => ?_
  rw [arguments]
  · exact hds
  · rintro span ts h
    cases h
    exact ht rfl

theorem yields_call {name : String} {f : Callable} {d : Expr} {ds : List Expr} {s s' s'' : Span}
    {ts us : List Token} (hf : v.callable? name = some f)
    (hds : Yields (arguments v stop · ts) (ds, ⟨.closing, s''⟩ :: us))
    (hd : f.apply name s ds = .ok d) :
    Yields (operand v stop · (⟨.name name, s⟩ :: ⟨.opening, s'⟩ :: ts)) (d, us) := by
  have hcall : Yields (call v stop · name s f (⟨.opening, s'⟩ :: ts)) (d, us) := by
    refine hds.step fun n hds => ?_
    rw [call, hds]
    show (f.apply name s ds >>= _) = _
    rw [hd]
    rfl
  refine hcall.step fun n hcall => ?_
  rw [operand, hf]
  exact hcall

/-- The call of a name of a function of one argument, on what is read without parentheses. -/
theorem yields_applied {name : String} {f : Callable} {d e : Expr} {s : Span} {t : Token}
    {ts us : List Token} (hf : v.callable? name = some f) (harity : f.arity = 1)
    (ht : t.lexeme ≠ .opening)
    (hd : Yields (expression v stop · signPrecedence (t :: ts)) (d, us))
    (he : f.apply name s [d] = .ok e) :
    Yields (operand v stop · (⟨.name name, s⟩ :: t :: ts)) (e, us) := by
  have hcall : Yields (call v stop · name s f (t :: ts)) (e, us) := by
    refine hd.step fun n hd => ?_
    rw [call, if_pos harity, hd]
    · show (f.apply name s [d] >>= _) = _
      rw [he]
      rfl
    · rintro span us h
      cases h
      exact ht rfl
    · exact List.cons_ne_nil _ _
  refine hcall.step fun n hcall => ?_
  rw [operand, hf]
  exact hcall

/-- The steps that the tokens are given are enough to read all of them. -/
theorem ofTokens_of_yields {ts : List Token} {e : Expr}
    (h : Yields (expression v (stopOf ts) · 0 ts) (e, [])) : ofTokens v ts = .ok e := by
  obtain ⟨n, hn⟩ := h
  have hread : expression v (stopOf ts) (max n (steps ts)) 0 ts = .ok (e, []) :=
    hn _ (Nat.le_max_left n (steps ts))
  rw [expression_steps (Nat.le_max_right n (steps ts))] at hread
  rw [ofTokens, hread]
  rfl

end Symbolic.Parser
