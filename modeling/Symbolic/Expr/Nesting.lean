import Symbolic.Expr.Same

/-!
How deep calls go. `callDepth` bounds how many calls can give way to bodies one after another.
`nesting` is the same number (`nesting_eq_callDepth`), found by going through the body of each
function once, however often the function is called.
-/

namespace Symbolic

namespace Expr

mutual

/-- How many calls can give way to bodies one after another. An argument may end up inside a call of
the body, so the two are added. -/
def callDepth : Expr → Nat
  | const _ | var _ _ => 0
  | sum es => callDepths es
  | product es => callDepths es
  | pow b p => max (callDepth b) (callDepth p)
  | apply _ e => callDepth e
  | call _ _ b es => callDepth b + callDepths es + 1

def callDepths : List Expr → Nat
  | [] => 0
  | e :: es => max (callDepth e) (callDepths es)

end

theorem callDepths_append_cons (es : List Expr) (e : Expr) (fs : List Expr) :
    callDepths (es ++ e :: fs) = max (callDepth e) (callDepths (es ++ fs)) := by
  induction es with
  | nil => rfl
  | cons d es ih =>
    simp only [List.cons_append, callDepths, ih]
    omega

mutual

theorem callDepth_eq_of_alike : (a b : Expr) → alike a b = true → callDepth a = callDepth b
  | const _, b, h | var _ _, b, h => by cases b <;> simp_all [alike, callDepth]
  | sum as, b, h | product as, b, h => by
    cases b <;> simp_all [alike, callDepth]
    exact callDepths_eq_of_pairsOff as _ h.1 h.2
  | pow b p, e, h => by
    cases e <;> simp_all [alike, callDepth]
    rw [callDepth_eq_of_alike b _ h.1, callDepth_eq_of_alike p _ h.2]
  | apply _ e, b, h => by
    cases b <;> simp_all [alike, callDepth]
    exact callDepth_eq_of_alike e _ h.2
  | call _ _ b as, e, h => by
    cases e <;> simp_all [alike, callDepth]
    rw [callDepth_eq_of_alike b _ h.1.2, callDepths_eq_of_allAlike as _ h.2]

theorem callDepths_eq_of_pairsOff :
    (as bs : List Expr) → as.length = bs.length → pairsOff as bs = true →
      callDepths as = callDepths bs
  | [], bs, hl, _ => by
    rw [List.eq_nil_of_length_eq_zero hl.symm]
  | a :: as, bs, hl, h => by
    rw [pairsOff] at h
    split at h
    · next rest hr =>
      obtain ⟨us, b, vs, hb, rfl, rfl⟩ := exists_of_removeFirst hr
      rw [callDepths_append_cons, callDepths, callDepth_eq_of_alike a b hb,
        callDepths_eq_of_pairsOff as (us ++ vs) (by simp at hl ⊢; omega) h]
    · cases h

theorem callDepths_eq_of_allAlike :
    (as bs : List Expr) → allAlike as bs = true → callDepths as = callDepths bs
  | [], bs, h => by cases bs <;> simp_all [allAlike]
  | a :: as, bs, h => by
    cases bs <;> simp_all [allAlike, callDepths]
    rw [callDepth_eq_of_alike a _ h.1, callDepths_eq_of_allAlike as _ h.2]

end

/-- Functions with the depth of each body. -/
abbrev Depths := List (Definition × Nat)

def Depths.get? (known : Depths) (f : Definition) : Option Nat :=
  (known.find? (·.1.same f)).map (·.2)

mutual

/-- The depth of an expression, and the depths known after it. -/
def nestingFrom (known : Depths) : Expr → Nat × Depths
  | const _ | var _ _ => (0, known)
  | sum es => nestingsFrom known es
  | product es => nestingsFrom known es
  | pow b p =>
    let (m, known) := nestingFrom known b
    let (n, known) := nestingFrom known p
    (max m n, known)
  | apply _ e => nestingFrom known e
  | call f ps b es =>
    let (n, known) := nestingsFrom known es
    match known.get? ⟨f, ps, b⟩ with
    | some m => (m + n + 1, known)
    | none =>
      let (m, known) := nestingFrom known b
      (m + n + 1, (⟨f, ps, b⟩, m) :: known)

def nestingsFrom (known : Depths) : List Expr → Nat × Depths
  | [] => (0, known)
  | e :: es =>
    let (m, known) := nestingFrom known e
    let (n, known) := nestingsFrom known es
    (max m n, known)

end

def nesting (e : Expr) : Nat := (nestingFrom [] e).1

/-- The depths noted are those of the bodies. -/
def Depths.Sound (known : Depths) : Prop := ∀ p ∈ known, p.2 = p.1.body.callDepth

theorem Depths.Sound.get? {known : Depths} (hk : known.Sound) {f : Definition} {n : Nat}
    (h : known.get? f = some n) : n = f.body.callDepth := by
  obtain ⟨p, hp, rfl⟩ := Option.map_eq_some_iff.1 h
  have hs := List.find?_some hp
  simp only [Definition.same_eq, Bool.and_eq_true] at hs
  rw [hk p (List.mem_of_find?_eq_some hp), callDepth_eq_of_alike _ _ hs.2]

mutual

theorem nestingFrom_sound : (e : Expr) → {known : Depths} → known.Sound →
    (nestingFrom known e).1 = callDepth e ∧ (nestingFrom known e).2.Sound
  | const _, _, h | var _ _, _, h => ⟨rfl, h⟩
  | sum es, _, h | product es, _, h => nestingsFrom_sound es h
  | pow b p, _, h => by
    obtain ⟨hb, h⟩ := nestingFrom_sound b h
    obtain ⟨hp, h⟩ := nestingFrom_sound p h
    exact ⟨by rw [nestingFrom, callDepth, ← hb, ← hp], h⟩
  | apply _ e, _, h => nestingFrom_sound e h
  | call f ps b es, known, h => by
    have hes := nestingsFrom_sound es h
    rw [nestingFrom, callDepth, ← hes.1]
    generalize nestingsFrom known es = r at hes
    cases hf : r.2.get? ⟨f, ps, b⟩ with
    | some m =>
      simp only [hf, hes.2.get? hf]
      exact ⟨trivial, hes.2⟩
    | none =>
      have hb := nestingFrom_sound b hes.2
      simp only [hf, hb.1]
      exact ⟨trivial, List.forall_mem_cons.2 ⟨rfl, hb.2⟩⟩

theorem nestingsFrom_sound : (es : List Expr) → {known : Depths} → known.Sound →
    (nestingsFrom known es).1 = callDepths es ∧ (nestingsFrom known es).2.Sound
  | [], _, h => ⟨rfl, h⟩
  | e :: es, _, h => by
    obtain ⟨he, h⟩ := nestingFrom_sound e h
    obtain ⟨hes, h⟩ := nestingsFrom_sound es h
    exact ⟨by rw [nestingsFrom, callDepths, ← he, ← hes], h⟩

end

theorem nesting_eq_callDepth (e : Expr) : e.nesting = e.callDepth :=
  (nestingFrom_sound e (List.forall_mem_nil _)).1

end Expr

end Symbolic
