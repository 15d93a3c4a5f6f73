import Symbolic.Proofs.Grammar.Spelling

/-!
Whether the names of a text are names again. A name is put into lower case when it is read, and
printed so; it is read as itself from there if it had no capital I with a dot (`isWord_iff_name`),
and only then: the combining dot that comes of that letter ends a name and starts none.
-/

namespace Symbolic.Token

variable {c : Char} {run : List Char} {s x : String} {t : Token} {ts : List Token}

theorem isWord_lowercase_iff (hc : startsName c = true) (hrun : ∀ d ∈ run, isNameChar d = true) :
    IsWord (Text.lowercase (String.ofList (c :: run))) ↔ 'İ' ∉ c :: run := by
  have hnames : ∀ d ∈ c :: run, isNameChar d = true :=
    List.forall_mem_cons.2 ⟨(startsName_spec hc).1, hrun⟩
  have hlist : (Text.lowercase (String.ofList (c :: run))).toList =
      Text.lowerAfter [] (c :: run) := by
    rw [Text.lowercase, String.toList_ofList, String.toList_ofList]
  rw [isWord_iff, hlist]
  constructor
  · rintro ⟨d, ds, hds, hd, hds', -⟩ hdot
    have hmem : '\u0307' ∈ d :: ds := hds ▸ Text.dot_mem_lowerAfter hdot
    have hall : ∀ e ∈ d :: ds, isNameChar e = true :=
      List.forall_mem_cons.2 ⟨(startsName_spec hd).1, hds'⟩
    exact absurd (hall _ hmem) (by decide)
  · intro hdot
    have hlower : ∀ d ∈ Text.lowerAfter [] (c :: run), isNameChar d = true ∧ Text.Settled d :=
      Text.name_lowerAfter hnames hdot
    obtain ⟨hne, -⟩ := not_or.1 (mt List.mem_cons.2 hdot)
    obtain ⟨d, hd, -, -, hstarts⟩ := Text.exists_lowered [] run (Ne.symm hne)
    have hcons : Text.lowerAfter [] (c :: run) = d :: Text.lowerAfter [c] run := by
      rw [Text.lowerAfter, hd]
      rfl
    refine ⟨d, _, hcons, hstarts hc, fun e he => ?_, ?_⟩
    · exact (hlower e (hcons ▸ List.mem_cons_of_mem _ he)).1
    · rw [Text.lowercase, hlist, Text.lowerAfter_settled fun e he => (hlower e he).2, ← hlist,
        String.ofList_toList]

/-- A name that is read in a text is the lower case of what stands there, and is one name by itself
just if no capital I with a dot stands there. -/
theorem isWord_iff_name (h : scan s = .ok ts) (ht : t ∈ ts) (hx : t.lexeme = .name x) :
    ∃ before run after, s.toList = before ++ (run ++ after) ∧
      t.span = ⟨byteLength before, byteLength before + byteLength run⟩ ∧
      x = Text.lowercase (String.ofList run) ∧ (IsWord x ↔ 'İ' ∉ run) := by
  obtain ⟨before, p, after, htext, hp, hreads, hspan⟩ := (faithful_of_scan h).stands t ht
  rw [hx] at hreads
  obtain ⟨run, rfl, rfl⟩ := hreads.of_name
  refine ⟨before, run, after, htext, hspan, rfl, ?_⟩
  cases hp with
  | name hc hrun _ => exact isWord_lowercase_iff hc hrun

theorem isWord_iff_name_sigma : scan "2*ΣΑΣ" = .ok [⟨.number 2, ⟨0, 1⟩⟩,
      ⟨.operator .times, ⟨1, 2⟩⟩, ⟨.name "σας", ⟨2, 8⟩⟩] ∧
    ∃ before run after, "2*ΣΑΣ".toList = before ++ (run ++ after) ∧
      (⟨2, 8⟩ : Span) = ⟨byteLength before, byteLength before + byteLength run⟩ ∧
      "σας" = Text.lowercase (String.ofList run) ∧ (IsWord "σας" ↔ 'İ' ∉ run) := by
  have hscan : scan "2*ΣΑΣ" = .ok [⟨.number 2, ⟨0, 1⟩⟩, ⟨.operator .times, ⟨1, 2⟩⟩,
      ⟨.name "σας", ⟨2, 8⟩⟩] := by decide +kernel
  exact ⟨hscan, isWord_iff_name hscan (t := ⟨.name "σας", ⟨2, 8⟩⟩)
    (List.mem_cons_of_mem _ (List.mem_cons_of_mem _ List.mem_cons_self)) rfl⟩

/-- The capital I with a dot is read as a name that is none. -/
theorem not_isWord_dotted : ¬ ∀ (s : String) (ts : List Token), scan s = .ok ts →
    ∀ t ∈ ts, ∀ x, t.lexeme = .name x → IsWord x := by
  intro h
  have hscans : scan "İ" = .ok [⟨.name "i\u0307", ⟨0, 2⟩⟩] ∧
      scan "i\u0307" = .error (.malformed (.badCharacter '\u0307') (some ⟨1, 3⟩)) := by decide +kernel
  obtain ⟨span, hword⟩ := h _ _ hscans.1 _ List.mem_cons_self _ rfl
  cases hword.symm.trans hscans.2

end Symbolic.Token
