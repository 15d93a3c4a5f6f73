import Symbolic.Expr.Expansion
import Symbolic.Expr.Fingerprint
import Symbolic.Expr.Nesting

/-!
Atomic form: what is left of an expression when its calls are expanded until there are none.

The arguments are atomic when they are put into a body, so the depth of calls falls by one with each
body, and an expansion to the depth of the calls is enough. Calls that have been expanded are noted
with what they expand to, so that functions that call one another often are not expanded anew for
every call. The atomic form is that of the plain expansion (`atomic_eq_expandWithin`).
-/

namespace Symbolic

namespace Expr

/-- The expression is no deeper than the given number of nodes. -/
def isShallow : Nat → Expr → Bool
  | 0, _ => false
  | n + 1, e => e.operands.all (isShallow n)

end Expr

/-- A call, the depth to which its body is expanded, and what it expands to. -/
structure Expansion where
  depth : Nat
  call : Expr
  result : Expr

/-- Expansions that are known. Only shallow calls are looked up: going through the arguments of
others can cost more than to expand them. -/
structure Expansions where
  buckets : Buckets Expansion

namespace Expansions

/-- The greatest depth of a call that is noted. -/
def maxDepth : Nat := 8

def empty : Expansions := ⟨.empty⟩

def get? (known : Expansions) (n : Nat) (e : Expr) : Option Expr :=
  if e.isShallow maxDepth then
    (known.buckets.find? e.fingerprint fun x => x.depth = n && x.call = e).map (·.result)
  else none

def note (known : Expansions) (n : Nat) (e r : Expr) : Expansions :=
  if e.isShallow maxDepth then ⟨known.buckets.push e.fingerprint ⟨n, e, r⟩⟩ else known

end Expansions

namespace Expr

mutual

/-- Expand the calls, `again` expanding the bodies to the depth `n`. The expansions that are known
after it come with the result. -/
def expandNoting (n : Nat) (again : Expr → Expansions → Expr × Expansions) :
    Expr → Expansions → Expr × Expansions
  | const c, known => (const c, known)
  | var s k, known => (var s k, known)
  | sum es, known =>
    if allAtomic es then (sum es, known)
    else
      let (es, known) := expandAllNoting n again es known
      (sumOf es, known)
  | product es, known =>
    if allAtomic es then (product es, known)
    else
      let (es, known) := expandAllNoting n again es known
      (productOf es, known)
  | pow b p, known =>
    if isAtomic b && isAtomic p then (pow b p, known)
    else
      let (b, known) := expandNoting n again b known
      let (p, known) := expandNoting n again p known
      (powOf b p, known)
  | apply f e, known =>
    if isAtomic e then (apply f e, known)
    else
      let (e, known) := expandNoting n again e known
      (applyOf f e, known)
  | call f ps b es, known =>
    match known.get? n (call f ps b es) with
    | some r => (r, known)
    | none =>
      let (args, known) := expandAllNoting n again es known
      let (r, known) := again (substitutePairs (ps.zip args) b) known
      (r.copied, known.note n (call f ps b es) r.copied)

def expandAllNoting (n : Nat) (again : Expr → Expansions → Expr × Expansions) :
    List Expr → Expansions → List Expr × Expansions
  | [], known => ([], known)
  | e :: es, known =>
    let (e, known) := expandNoting n again e known
    let (es, known) := expandAllNoting n again es known
    (e :: es, known)

end

def expandNotingWithin : Nat → Expr → Expansions → Expr × Expansions
  | 0, e, known => (e, known)
  | n + 1, e, known => expandNoting n (expandNotingWithin n) e known

def atomicNoting (e : Expr) (known : Expansions) : Expr × Expansions :=
  expandNotingWithin e.nesting e known

def atomic (e : Expr) : Expr := (e.atomicNoting .empty).1

end Expr

namespace Expansions

/-- What is known is what the plain expansion gives. -/
def Sound (known : Expansions) : Prop :=
  ∀ n e r, known.get? n e = some r → r = e.expandWithin (n + 1)

theorem empty_sound : empty.Sound := by
  intro n e r h
  simp [get?, empty, Buckets.find?_empty] at h

theorem Sound.note {known : Expansions} (hk : known.Sound) (n : Nat) (e : Expr) :
    (known.note n e (e.expandWithin (n + 1))).Sound := by
  intro m d r h
  rw [Expansions.note] at h
  split at h
  · simp only [get?, Buckets.find?_push] at h
    split at h
    · split at h
      · next hp =>
        simp only [Bool.and_eq_true, decide_eq_true_eq] at hp
        obtain ⟨_, rfl, rfl⟩ := hp
        simpa using h.symm
      · next hd _ => exact hk m d r (by simpa [get?, hd] using h)
    · cases h
  · exact hk m d r h

end Expansions

namespace Expr

mutual

theorem expandNoting_sound {n : Nat} {again : Expr → Expansions → Expr × Expansions}
    (ha : ∀ e known, known.Sound → (again e known).1 = e.expandWithin n ∧ (again e known).2.Sound) :
    (e : Expr) → {known : Expansions} → known.Sound →
      (expandNoting n again e known).1 = e.expandWithin (n + 1) ∧
        (expandNoting n again e known).2.Sound
  | const _, _, hk | var _ _, _, hk => ⟨rfl, hk⟩
  | sum es, known, hk | product es, known, hk => by
    have hes := expandAllNoting_sound ha es hk
    rw [expandNoting, expandWithin, expandWith]
    split
    · exact ⟨rfl, hk⟩
    · exact ⟨by simp only [hes.1], hes.2⟩
  | pow b p, known, hk => by
    have hb := expandNoting_sound ha b hk
    have hp := expandNoting_sound ha p hb.2
    rw [expandNoting, expandWithin, expandWith]
    split
    · exact ⟨rfl, hk⟩
    · exact ⟨by simp only [hb.1, hp.1, expandWithin], hp.2⟩
  | apply f e, known, hk => by
    have he := expandNoting_sound ha e hk
    rw [expandNoting, expandWithin, expandWith]
    split
    · exact ⟨rfl, hk⟩
    · exact ⟨by simp only [he.1, expandWithin], he.2⟩
  | call f ps b es, known, hk => by
    rw [expandNoting]
    split
    · next r hr => exact ⟨hk _ _ _ hr, hk⟩
    · have hes := expandAllNoting_sound ha es hk
      have hb := ha (substitutePairs (ps.zip (expandAllNoting n again es known).1) b) _ hes.2
      have he : (call f ps b es).expandWithin (n + 1) =
          (expandWithin n (substitutePairs (ps.zip (expandAllNoting n again es known).1) b)).copied := by
        rw [hes.1]
        rfl
      have hn := hb.2.note n (call f ps b es)
      rw [he, ← hb.1] at hn
      rw [← hb.1] at he
      exact ⟨he.symm, hn⟩

theorem expandAllNoting_sound {n : Nat} {again : Expr → Expansions → Expr × Expansions}
    (ha : ∀ e known, known.Sound → (again e known).1 = e.expandWithin n ∧ (again e known).2.Sound) :
    (es : List Expr) → {known : Expansions} → known.Sound →
      (expandAllNoting n again es known).1 = expandListWith (expandWithin n) es ∧
        (expandAllNoting n again es known).2.Sound
  | [], _, hk => ⟨rfl, hk⟩
  | e :: es, known, hk => by
    have he := expandNoting_sound ha e hk
    have hes := expandAllNoting_sound ha es he.2
    exact ⟨by simp only [expandAllNoting, expandListWith, he.1, hes.1, expandWithin], hes.2⟩

end

theorem expandNotingWithin_sound :
    (n : Nat) → (e : Expr) → (known : Expansions) → known.Sound →
      (expandNotingWithin n e known).1 = e.expandWithin n ∧ (expandNotingWithin n e known).2.Sound
  | 0, _, _, hk => ⟨rfl, hk⟩
  | n + 1, e, _, hk => expandNoting_sound (expandNotingWithin_sound n) e hk

theorem atomicNoting_sound (e : Expr) {known : Expansions} (hk : known.Sound) :
    (e.atomicNoting known).1 = e.expandWithin e.callDepth ∧ (e.atomicNoting known).2.Sound := by
  rw [← nesting_eq_callDepth]
  exact expandNotingWithin_sound _ e _ hk

theorem atomic_eq_expandWithin (e : Expr) : e.atomic = e.expandWithin e.callDepth :=
  (atomicNoting_sound e Expansions.empty_sound).1

/-- The atomic forms of the two are equal. The calls of both are noted together. -/
def sameAtomic (a b : Expr) : Bool :=
  let (x, known) := a.atomicNoting .empty
  x.same (b.atomicNoting known).1

theorem sameAtomic_eq (a b : Expr) : sameAtomic a b = a.atomic.same b.atomic := by
  have ha := atomicNoting_sound a Expansions.empty_sound
  show (a.atomicNoting .empty).1.same (b.atomicNoting (a.atomicNoting .empty).2).1 = _
  rw [(atomicNoting_sound b ha.2).1, ← atomic_eq_expandWithin]
  rfl

end Expr

end Symbolic
