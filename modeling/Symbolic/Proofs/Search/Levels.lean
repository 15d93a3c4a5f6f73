import Symbolic.Proofs.Canonical.Constructible
import Symbolic.Proofs.Search.Exhaustive
import Symbolic.Search.Equal

/-!
The four levels of equality form a chain (`equals_chain`). The last step of it compares a search of
limited depth with one that goes on until nothing is new: `Walk.Unlimited` is its loop, which ends
with a proof wherever a limited walk finds one (`Walk.unlimited_of_wide`).
-/

namespace Symbolic

open Symbolic.Expr

namespace Walk

variable {step : Expr → List Expr} {test : Expr → Bool}

/-- From a level and a state, a wide walk without limit ends in the given state. The steps that are
left play no part in it; they are noted as none. -/
inductive Unlimited (step : Expr → List Expr) (test : Expr → Bool) :
    List Expr → Walk → Walk → Prop where
  /-- Nothing was new. -/
  | exhausted {w : Walk} : Unlimited step test [] w w
  /-- Something in the next level passes the test. -/
  | passed {level : List Expr} {w : Walk} : level ≠ [] →
      (nextLevel step test 0 level w []).1.found = true →
      Unlimited step test level w (nextLevel step test 0 level w []).1
  /-- The walk goes on from the next level. -/
  | next {level : List Expr} {w v : Walk} : level ≠ [] →
      (nextLevel step test 0 level w []).1.found = false →
      Unlimited step test (nextLevel step test 0 level w []).2.reverse
        (nextLevel step test 0 level w []).1 v →
      Unlimited step test level w v

/-- The loop ends in one state only. -/
theorem Unlimited.unique {level : List Expr} {w v v' : Walk} (h : Unlimited step test level w v)
    (h' : Unlimited step test level w v') : v = v' := by
  induction h with
  | exhausted =>
    cases h' with
    | exhausted => rfl
    | passed hl => exact absurd rfl hl
    | next hl => exact absurd rfl hl
  | passed hl hf =>
    cases h' with
    | exhausted => exact absurd rfl hl
    | passed => rfl
    | next _ hf' => rw [hf] at hf'; cases hf'
  | next hl hf _ ih =>
    cases h' with
    | exhausted => exact absurd rfl hl
    | passed _ hf' => rw [hf] at hf'; cases hf'
    | next _ _ h' => exact ih h'

/-- Two walks that differ at most in the steps that are left. -/
structure InStep (w v : Walk) : Prop where
  visited : w.visited = v.visited
  found : w.found = v.found
  contains : ∀ e, w.left.contains e = v.left.contains e

theorem inStep_start (test : Expr → Bool) (n m : Nat) (e : Expr) :
    InStep (start test n e) (start test m e) where
  visited := rfl
  found := rfl
  contains d := by
    simp only [start, Table.contains, Table.get?_insert]
    split <;> rfl

theorem InStep.visit {w v : Walk} (h : InStep w v) (n m : Nat) (e : Expr) :
    InStep (w.visit test n e) (v.visit test m e) where
  visited := congrArg (e :: ·) h.visited
  found := rfl
  contains d := by
    have hd := h.contains d
    simp only [Walk.visit, Table.contains, Table.get?_insert] at hd ⊢
    split
    · rfl
    · exact hd

/-- What a level leads to does not depend on the steps that are left. -/
theorem InStep.visitNew {w v : Walk} (h : InStep w v) (n m : Nat) (es fresh : List Expr) :
    InStep (visitNew test n es w fresh).1 (visitNew test m es v fresh).1 ∧
      (Walk.visitNew test n es w fresh).2 = (Walk.visitNew test m es v fresh).2 := by
  induction es generalizing w v fresh with
  | nil => exact ⟨h, rfl⟩
  | cons e es ih =>
    rw [Walk.visitNew, Walk.visitNew, h.found, h.contains e]
    split
    · exact ⟨h, rfl⟩
    split
    · exact ih h fresh
    · exact ih (h.visit n m e) (e :: fresh)

theorem InStep.nextLevel {w v : Walk} (h : InStep w v) (step : Expr → List Expr)
    (test : Expr → Bool) (n m : Nat) (level : List Expr) :
    InStep (nextLevel step test n level w []).1 (nextLevel step test m level v []).1 ∧
      (Walk.nextLevel step test n level w []).2 = (Walk.nextLevel step test m level v []).2 := by
  rw [nextLevel_eq, nextLevel_eq]
  exact h.visitNew n m _ _

/-- What a walk finds within `n` steps, one of more steps finds too. -/
theorem InStep.wide {w v : Walk} (h : InStep w v) {n m : Nat} (hnm : n ≤ m) {level : List Expr}
    (hf : (wide step test n level w).found = true) : (wide step test m level v).found = true := by
  induction n generalizing m level w v with
  | zero =>
    have hv : v.found = true := h.found ▸ hf
    cases m with
    | zero => exact hv
    | succ m =>
      -- a walk that has found something already goes no further
      have hstop : Walk.nextLevel step test m level v [] = (v, []) := by
        cases level with
        | nil => rfl
        | cons e es => rw [Walk.nextLevel, if_pos hv]
      rw [Walk.wide, hstop]
      simp only [hv, Bool.true_or, if_true]
  | succ n ih =>
    cases m with
    | zero => cases hnm
    | succ m =>
      obtain ⟨hwalk, hfresh⟩ := h.nextLevel step test n m level
      rw [Walk.wide] at hf ⊢
      simp only [hwalk.found, hfresh] at hf ⊢
      split
      · next hstop =>
        rw [if_pos hstop] at hf
        exact hwalk.found ▸ hf
      · next hgo =>
        rw [if_neg hgo] at hf
        exact ih hwalk (Nat.le_of_succ_le_succ hnm) hf

/-- Where a walk of `n` steps finds something, one without limit ends and finds it. -/
theorem unlimited_of_wide {w v : Walk} (h : InStep w v) {n : Nat} {level : List Expr}
    (hw : w.found = false) (hf : (wide step test n level w).found = true) :
    ∃ u, Unlimited step test level v u ∧ u.found = true := by
  induction n generalizing level w v with
  | zero =>
    rw [wide, hw] at hf
    cases hf
  | succ n ih =>
    obtain ⟨hwalk, hfresh⟩ := h.nextLevel step test n 0 level
    have hlevel : level ≠ [] := by
      rintro rfl
      rw [wide, nextLevel] at hf
      simp only [hw, List.isEmpty_nil, Bool.or_true, if_true] at hf
      cases hf
    rw [wide] at hf
    simp only at hf
    cases hn : (nextLevel step test n level w []).1.found with
    | true => exact ⟨_, .passed hlevel (hwalk.found ▸ hn), hwalk.found ▸ hn⟩
    | false =>
      rw [hn, Bool.false_or] at hf
      split at hf
      · rw [hn] at hf
        cases hf
      · rw [hfresh] at hf
        obtain ⟨u, hu, huf⟩ := ih hwalk hn hf
        exact ⟨u, .next hlevel (hwalk.found ▸ hn) hu, huf⟩

end Walk

namespace Search

/-- The walk of a wide search finds its start, or what its levels lead to. -/
theorem found_walk {s : Search} (hs : s.strategy = .wide) (rules : List Rule)
    (test : Expr → Bool) (a : Expr) :
    (s.walk rules test a).found = (test a || (Walk.wide (step rules) test (s.depth.getD unlimited)
      [a] (Walk.start test (s.depth.getD unlimited) a)).found) := by
  have hstart : (Walk.start test (s.depth.getD unlimited) a).found = test a := rfl
  rw [Search.walk, hs]
  cases ht : test a with
  | true =>
    rw [ht] at hstart
    simp only [hstart, if_true, Bool.true_or]
  | false =>
    rw [ht] at hstart
    simp only [hstart, Bool.false_eq_true, if_false, Bool.false_or]

/-- Equal to `b`, as it stands or in atomic form. -/
def reaches (b e : Expr) : Bool := e.same b || e.atomic.same b.atomic

/-- The standard search for a proof that `a` equals `b`, without limit, ends in the given state. -/
inductive Ends (a b : Expr) : Walk → Prop where
  /-- The start is equal to `b` or has its atomic form. -/
  | atOnce : reaches b a = true → Ends a b (Walk.start (reaches b) 0 a)
  /-- The walk goes on from the start. -/
  | walk {w : Walk} : reaches b a = false →
      Walk.Unlimited (step (standard.rules [a, b])) (reaches b) [a]
        (Walk.start (reaches b) 0 a) w →
      Ends a b w

variable {a b c : Expr}

theorem Ends.unique {w v : Walk} (h : Ends a b w) (h' : Ends a b v) : w = v := by
  cases h with
  | atOnce hs =>
    cases h' with
    | atOnce => rfl
    | walk hs' => rw [hs] at hs'; cases hs'
  | walk hs hw =>
    cases h' with
    | atOnce hs' => rw [hs] at hs'; cases hs'
    | walk _ hv => exact hw.unique hv

/-- What the search of the default depth proves, it proves with the greatest depth, and without
limit it ends with a proof. -/
theorem proves_deeper (h : standard.proves a b = true) :
    ({ standard with depth := none } : Search).proves a b = true ∧
      ∃ w, Ends a b w ∧ w.found = true := by
  have hfound {s : Search} (hs : s.strategy = .wide) : s.proves a b =
      (reaches b a || (Walk.wide (step (s.rules [a, b])) (reaches b) (s.depth.getD unlimited) [a]
        (Walk.start (reaches b) (s.depth.getD unlimited) a)).found) :=
    found_walk hs _ _ a
  rw [hfound rfl] at h ⊢
  cases ha : reaches b a with
  | true => exact ⟨Bool.true_or _, _, .atOnce ha, ha⟩
  | false =>
    rw [ha, Bool.false_or] at h
    have hstart (n : Nat) := Walk.inStep_start (reaches b) defaultDepth n a
    have hle : defaultDepth ≤ unlimited := by decide
    obtain ⟨u, hu, hf⟩ := Walk.unlimited_of_wide (hstart 0) ha h
    exact ⟨(hstart unlimited).wide hle h, u, .walk ha hu, hf⟩

end Search

namespace Expr

variable {a b c : Expr}

theorem equals_atomic_iff : equals .atomic a b = true ↔ Alike a b ∨ Alike a.atomic b.atomic := by
  rw [equals, sameAtomic_eq, Bool.or_eq_true, same_iff, same_iff]

/-- Where the functions that are called have steady bodies, equal atomic forms are kept when either
side gives way to an equal one. -/
theorem equals_atomic_trans (ha : Stable a) (hb : Stable b) (hc : Stable c)
    (hab : equals .atomic a b = true) (hbc : equals .atomic b c = true) :
    equals .atomic a c = true := by
  rw [equals_atomic_iff] at hab hbc ⊢
  rcases hab with hab | hab
  · rcases hbc with hbc | hbc
    · exact .inl (hab.trans hbc)
    · exact .inr ((atomic_alike ha hb hab).trans hbc)
  · rcases hbc with hbc | hbc
    · exact .inr (hab.trans (atomic_alike hb hc hbc))
    · exact .inr (hab.trans hbc)

/-- Equal expressions have equal atomic forms, those are found by the search of the default depth,
and what that finds is found by the search without limit, which ends. Equality of atomic forms is
reflexive and symmetric, and transitive where the functions that are called have steady bodies. -/
theorem equals_chain (a b c : Expr) :
    (equals .exactly a b = true → equals .atomic a b = true) ∧
      (equals .atomic a b = true → equals .deep a b = true) ∧
      (equals .deep a b = true → equals .deepest a b = true ∧ (∃ w, Search.Ends a b w) ∧
        ∀ w, Search.Ends a b w → w.found = true) ∧
      equals .atomic a a = true ∧ equals .atomic a b = equals .atomic b a ∧
      (Stable a → Stable b → Stable c → equals .atomic a b = true → equals .atomic b c = true →
        equals .atomic a c = true) := by
  refine ⟨fun h => ?_, fun h => ?_, fun h => ?_, ?_, ?_, equals_atomic_trans⟩
  · exact equals_atomic_iff.2 (.inl (same_iff.1 h))
  · have hstart : Search.reaches b a = true := by
      rw [equals, sameAtomic_eq] at h
      exact h
    have hfound := Search.found_walk (s := Search.standard) rfl
      (Search.standard.rules [a, b]) (Search.reaches b) a
    rw [hstart, Bool.true_or] at hfound
    exact hfound
  · obtain ⟨hd, w, hw, hf⟩ := Search.proves_deeper h
    exact ⟨hd, ⟨w, hw⟩, fun v hv => hw.unique hv ▸ hf⟩
  · exact equals_atomic_iff.2 (.inl (.refl a))
  · rw [Bool.eq_iff_iff, equals_atomic_iff, equals_atomic_iff]
    exact ⟨Or.imp .symm .symm, Or.imp .symm .symm⟩

/-- The square root of a variable, named a second time. -/
def root : Definition := .ofNames "root" ["t"] (Builtin.sqrt.on [ofName "t"])

theorem steadyDefinition_sqrt : Search.SteadyDefinition squareRoot :=
  ⟨by decide +kernel, kept_stable.pow (kept_stable.var _ _)
    (kept_stable.pow (kept_stable.const 2) (kept_stable.const (-1)))⟩

theorem steadyDefinition_root : Search.SteadyDefinition root :=
  ⟨by decide +kernel,
    steadyDefinition_sqrt.on rfl (List.forall_mem_singleton.2 (kept_stable.var _ _))⟩

/-- A square root is equal in atomic form to the function that it is a call of and that function to
a power, so it is to the power, and the searches find it. -/
theorem equals_chain_root :
    equals .atomic (root.on [ofName "x"]) (powOf (ofName "x") half) = true ∧
      equals .deep (root.on [ofName "x"]) (powOf (ofName "x") half) = true ∧
      equals .deepest (root.on [ofName "x"]) (powOf (ofName "x") half) = true := by
  have hx : ∀ e ∈ [ofName "x"], Stable e := List.forall_mem_singleton.2 (kept_stable.var _ _)
  have hhalf : Stable half := kept_stable.pow (kept_stable.const 2) (kept_stable.const (-1))
  have hpow : Stable (powOf (ofName "x") half) := kept_stable.pow (kept_stable.var _ _) hhalf
  have hroot : Stable (root.on [ofName "x"]) := steadyDefinition_root.on rfl hx
  have hsqrt : Stable (Builtin.sqrt.on [ofName "x"]) := steadyDefinition_sqrt.on rfl hx
  obtain ⟨-, -, -, -, -, htrans⟩ :=
    equals_chain (root.on [ofName "x"]) (Builtin.sqrt.on [ofName "x"]) (powOf (ofName "x") half)
  obtain ⟨-, hdeep, hdeepest, -⟩ :=
    equals_chain (root.on [ofName "x"]) (powOf (ofName "x") half) (ofName "x")
  have hatomic := htrans hroot hsqrt hpow (by decide +kernel) (by decide +kernel)
  exact ⟨hatomic, hdeep hatomic, (hdeepest (hdeep hatomic)).1⟩

/-! A body that is not steady. -/

def unsteady : Definition := .ofNames "f" ["x"] Search.collided

/-- Expansion puts the argument `x` into the body: it leaves the body as it is if it is the same
variable, and otherwise builds it anew. So the two equal calls have different atomic forms, of which
one is that of `2 ^ (8 * x)`. -/
theorem not_equals_atomic_trans :
    equals .atomic (powOf (const 2) (productOf [const 8, ofName "x"]))
        (unsteady.on [.var (Symbol.ofName "x") 1]) = true ∧
      equals .atomic (unsteady.on [.var (Symbol.ofName "x") 1]) (unsteady.on [ofName "x"]) = true ∧
      equals .atomic (powOf (const 2) (productOf [const 8, ofName "x"]))
        (unsteady.on [ofName "x"]) = false := by
  decide +kernel

end Expr

end Symbolic
