import Symbolic.Proofs.Grammar.Pieces

/-!
Where the tokens of a text stand. The tokens of a text that is scanned are those of its pieces, in
order: the span of a token is the bytes that its piece takes up, so spans do not overlap, begin and
end between characters, and leave out blanks only (`Faithful`). The scan keeps this up piece by
piece, from the byte where it is to the end of the text (`LaidOut.skip`, `StandsIn.cons`), and it gets
there unless a piece reads as nothing (`scan_faithful`).
-/

namespace Symbolic.Token

variable {text before after us vs : List Char} {c : Char} {p : Piece} {ps : List Piece} {x : Lexeme}
  {s : String} {t : Token} {ts : List Token} {n : Nat}

/-- The token is what a piece of the text reads as, and its span is the bytes of the piece. -/
def StandsIn (t : Token) (text : List Char) : Prop :=
  ∃ (before : List Char) (p : Piece) (after : List Char),
    text = before ++ (p.text ++ after) ∧ p.Leads after ∧ p.Reads t.lexeme ∧
    t.span = ⟨byteLength before, byteLength before + byteLength p.text⟩

/-- The byte `n` of the text belongs to a token. -/
def Held (ts : List Token) (n : Nat) : Prop := ∃ t ∈ ts, t.span.start ≤ n ∧ n < t.span.stop

/-- The tokens are those of the text: each is read off the piece that its span names, they follow
one another, and what they leave out is blank. -/
structure Faithful (s : String) (ts : List Token) : Prop where
  ascending : ts.Pairwise fun t u => t.span.stop ≤ u.span.start
  within : ∀ t ∈ ts, t.span.start < t.span.stop ∧ t.span.stop ≤ s.utf8ByteSize
  boundaries : ∀ t ∈ ts, String.Pos.Raw.IsValid s ⟨t.span.start⟩ ∧
    String.Pos.Raw.IsValid s ⟨t.span.stop⟩
  stands : ∀ t ∈ ts, t.StandsIn s.toList
  blank : ∀ before c after, s.toList = before ++ c :: after → ¬ Held ts (byteLength before) →
    Text.isBlank c = true

/-- The tokens are those of the text from the byte `n` on. -/
structure LaidOut (text : List Char) (n : Nat) (ts : List Token) : Prop where
  ascending : ts.Pairwise fun t u => t.span.stop ≤ u.span.start
  behind : ∀ t ∈ ts, n ≤ t.span.start
  stands : ∀ t ∈ ts, t.StandsIn text
  blank : ∀ before c after, text = before ++ c :: after → n ≤ byteLength before →
    ¬ Held ts (byteLength before) → Text.isBlank c = true

/-! Bytes of a text. -/

theorem byteLength_append (us vs : List Char) :
    byteLength (us ++ vs) = byteLength us + byteLength vs := by
  induction us with
  | nil => exact (Nat.zero_add _).symm
  | cons c us ih =>
    change c.utf8Size + byteLength (us ++ vs) = c.utf8Size + byteLength us + byteLength vs
    rw [ih, Nat.add_assoc]

theorem byteLength_pos (h : us ≠ []) : 0 < byteLength us := by
  obtain ⟨c, us, rfl⟩ := List.exists_cons_of_ne_nil h
  exact Nat.add_pos_left c.utf8Size_pos _

theorem utf8ByteSize_ofList (cs : List Char) : (String.ofList cs).utf8ByteSize = byteLength cs := by
  induction cs with
  | nil => rfl
  | cons c cs ih =>
    rw [String.ofList_cons, String.utf8ByteSize_append, String.utf8ByteSize_singleton, ih]
    rfl

theorem isValid_byteLength (h : s.toList = us ++ vs) :
    String.Pos.Raw.IsValid s ⟨byteLength us⟩ := by
  refine String.Pos.Raw.isValid_iff_exists_append.2 ⟨String.ofList us, String.ofList vs, ?_, ?_⟩
  · rw [← String.ofList_append, ← h, String.ofList_toList]
  · rw [← utf8ByteSize_ofList]
    rfl

/-- A character of a text that does not stand before another is that one, or it stands behind all
its bytes. -/
theorem next_character {us' vs' : List Char} {c' : Char} (h : us ++ c :: vs = us' ++ c' :: vs')
    (hle : byteLength us ≤ byteLength us') :
    c = c' ∨ byteLength us + c.utf8Size ≤ byteLength us' := by
  obtain ⟨ds, rfl, hds⟩ | ⟨ds, rfl, hds⟩ := List.append_eq_append_iff.1 h
  · cases ds with
    | nil => exact .inl (List.cons.inj hds).1
    | cons d ds =>
      obtain ⟨rfl, -⟩ := List.cons.inj hds
      refine .inr ?_
      rw [byteLength_append]
      exact Nat.add_le_add_left (Nat.le_add_right _ _) _
  · cases ds with
    | nil => exact .inl (List.cons.inj hds).1.symm
    | cons d ds =>
      rw [byteLength_append] at hle
      have := byteLength_pos (List.cons_ne_nil d ds)
      omega

/-! The layout, from the end of the text to its start. -/

theorem LaidOut.nil (text : List Char) : LaidOut text (byteLength text) [] where
  ascending := .nil
  behind := nofun
  stands := nofun
  blank := by
    intro before c after htext hle
    rw [htext, byteLength_append] at hle
    have := byteLength_pos (List.cons_ne_nil c after)
    omega

theorem LaidOut.skip (htext : text = before ++ c :: after) (hc : Text.isBlank c = true)
    (h : LaidOut text (byteLength before + c.utf8Size) ts) :
    LaidOut text (byteLength before) ts where
  ascending := h.ascending
  behind t ht := (Nat.le_add_right _ _).trans (h.behind t ht)
  stands := h.stands
  blank := by
    intro before' c' after' htext' hle hheld
    obtain rfl | hle := next_character (htext.symm.trans htext') hle
    · exact hc
    · exact h.blank before' c' after' htext' hle hheld

theorem StandsIn.cons (ht : t.StandsIn text) (h : LaidOut text t.span.stop ts) :
    LaidOut text t.span.start (t :: ts) := by
  have hle : t.span.start ≤ t.span.stop := by
    obtain ⟨before, p, after, -, -, -, hspan⟩ := ht
    rw [hspan]
    exact Nat.le_add_right _ _
  refine ⟨List.pairwise_cons.2 ⟨h.behind, h.ascending⟩, ?_, List.forall_mem_cons.2 ⟨ht, h.stands⟩, ?_⟩
  · exact List.forall_mem_cons.2 ⟨Nat.le_refl _, fun u hu => hle.trans (h.behind u hu)⟩
  · intro before c after htext hstart hheld
    have hstop : t.span.stop ≤ byteLength before := by
      by_contra hlt
      exact hheld ⟨t, List.mem_cons_self, hstart, Nat.lt_of_not_le hlt⟩
    refine h.blank before c after htext hstop ?_
    rintro ⟨u, hu, hbyte⟩
    exact hheld ⟨u, List.mem_cons_of_mem _ hu, hbyte⟩

/-- A text none of whose pieces is refused is scanned. -/
theorem scanFrom_laidOut (h : Splits after ps) (hread : ¬ ∃ p ∈ ps, p.Refused)
    (htext : text = before ++ after) :
    ∃ ts, scanFrom (byteLength before) after = .ok ts ∧ LaidOut text (byteLength before) ts := by
  induction h generalizing before with
  | nil =>
    rw [List.append_nil] at htext
    subst htext
    exact ⟨[], by rw [scanFrom], .nil text⟩
  | @cons p rest ps hleads _ ih =>
    have hrest : text = before ++ p.text ++ rest := by rw [htext, List.append_assoc]
    have hlater : ¬ ∃ q ∈ ps, q.Refused := by
      rintro ⟨q, hq, hrefused⟩
      exact hread ⟨q, List.mem_cons_of_mem _ hq, hrefused⟩
    obtain ⟨ts, hscan, hts⟩ := ih hlater hrest
    rw [byteLength_append] at hscan hts
    obtain ⟨c, rfl⟩ | ⟨x, hx⟩ | hrefused := p.blank_or_reads_or_refused
    · cases hleads with
      | blank hc => exact ⟨ts, (Piece.Leads.blank hc).scan_blank.trans hscan, .skip htext hc hts⟩
    · have hstands : StandsIn ⟨x, ⟨byteLength before, byteLength before + byteLength p.text⟩⟩ text :=
        ⟨before, p, rest, htext, hleads, hx, rfl⟩
      refine ⟨_ :: ts, ?_, hstands.cons hts⟩
      rw [hleads.scan_reads hx, hscan]
      rfl
    · exact absurd ⟨p, List.mem_cons_self, hrefused⟩ hread

theorem LaidOut.faithful (h : LaidOut s.toList 0 ts) : Faithful s ts where
  ascending := h.ascending
  within t ht := by
    obtain ⟨before, p, after, htext, hp, -, hspan⟩ := h.stands t ht
    have hsize : s.utf8ByteSize = byteLength before + (byteLength p.text + byteLength after) := by
      rw [← byteLength_append, ← byteLength_append, ← htext, ← utf8ByteSize_ofList,
        String.ofList_toList]
    rw [hspan, hsize, ← Nat.add_assoc]
    exact ⟨Nat.lt_add_of_pos_right (byteLength_pos hp.text_ne_nil), Nat.le_add_right _ _⟩
  boundaries t ht := by
    obtain ⟨before, p, after, htext, -, -, hspan⟩ := h.stands t ht
    have hstop := isValid_byteLength ((List.append_assoc _ _ _).trans htext.symm).symm
    rw [hspan]
    rw [byteLength_append] at hstop
    exact ⟨isValid_byteLength htext, hstop⟩
  stands := h.stands
  blank before c after htext hheld := h.blank before c after htext (Nat.zero_le _) hheld

theorem faithful_of_scan (h : scan s = .ok ts) : Faithful s ts := by
  obtain ⟨ps, hps⟩ := exists_splits s.toList
  by_cases hrefused : ∃ p ∈ ps, p.Refused
  · obtain ⟨e, he⟩ := hps.scan_error hrefused 0
    cases h.symm.trans he
  · obtain ⟨us, hus, hlaid⟩ := scanFrom_laidOut hps hrefused (List.nil_append _).symm
    cases h.symm.trans hus
    exact hlaid.faithful

/-- Around a token that is the only one of its text all is blank. -/
theorem Faithful.of_singleton (h : Faithful s [t]) :
    ∃ (before : List Char) (p : Piece) (after : List Char), s.toList = before ++ (p.text ++ after) ∧
      p.Leads after ∧ p.Reads t.lexeme ∧ ∀ d ∈ before ++ after, Text.isBlank d = true := by
  obtain ⟨before, p, after, htext, hp, hx, hspan⟩ := h.stands t List.mem_cons_self
  -- a byte before the token, or behind it, belongs to no token
  have hheld {n : Nat} (hn : n < byteLength before ∨ byteLength (before ++ p.text) ≤ n) :
      ¬ Held [t] n := by
    rintro ⟨u, hu, hstart, hstop⟩
    rw [byteLength_append] at hn
    rw [List.mem_singleton.1 hu, hspan] at hstart hstop
    exact hn.elim (Nat.not_lt.2 hstart) (Nat.not_le.2 hstop)
  refine ⟨before, p, after, htext, hp, hx, List.forall_mem_append.2 ⟨?_, ?_⟩⟩
  · intro d hd
    obtain ⟨us, vs, rfl⟩ := List.append_of_mem hd
    refine h.blank us d (vs ++ (p.text ++ after)) (by rw [htext, List.append_assoc]; rfl) (hheld ?_)
    rw [byteLength_append]
    exact .inl (Nat.lt_add_of_pos_right (byteLength_pos (List.cons_ne_nil d vs)))
  · intro d hd
    obtain ⟨us, vs, rfl⟩ := List.append_of_mem hd
    refine h.blank (before ++ p.text ++ us) d vs ?_ (hheld ?_)
    · rw [htext, List.append_assoc, List.append_assoc]
    · rw [byteLength_append (before ++ p.text)]
      exact .inr (Nat.le_add_right _ _)

end Symbolic.Token
