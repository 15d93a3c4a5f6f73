import Symbolic.Buckets
import Symbolic.Expr.Same

/-!
Fingerprints: a number for every expression, the same for expressions that are equal up to the
order of operands. Sets and tables of expressions look up by it first.
-/

namespace Symbolic

/-- Blend a number into another; the order of the two matters. -/
def blend (h x : UInt64) : UInt64 :=
  let y := (h ^^^ x) * 0x9e3779b97f4a7c15
  y ^^^ (y >>> 29)

def textFingerprint (s : String) : UInt64 :=
  s.toList.foldl (fun h c => blend h c.toNat.toUInt64) 7

def ratFingerprint (q : Rat) : UInt64 :=
  blend (blend (if q.num < 0 then 3 else 5) q.num.natAbs.toUInt64) q.den.toUInt64

namespace Expr

mutual

/-- The fingerprint of an expression. Operands of sums and products are added up, so their order
does not matter; the body of a called function is left out. -/
def fingerprint : Expr → UInt64
  | const c => blend 1 (ratFingerprint c)
  | var s _ => blend 2 (textFingerprint s.name)
  | sum es => blend 3 (fingerprintSum es)
  | product es => blend 4 (fingerprintSum es)
  | pow b p => blend (blend 5 (fingerprint b)) (fingerprint p)
  | apply f e => blend (blend 6 f.rank.toUInt64) (fingerprint e)
  | call f _ _ es => fingerprintList (blend 8 (textFingerprint f)) es

def fingerprintSum : List Expr → UInt64
  | [] => 0
  | e :: es => fingerprint e + fingerprintSum es

def fingerprintList (h : UInt64) : List Expr → UInt64
  | [] => h
  | e :: es => fingerprintList (blend h (fingerprint e)) es

end

theorem fingerprintSum_append_cons (es : List Expr) (e : Expr) (fs : List Expr) :
    fingerprintSum (es ++ e :: fs) = fingerprint e + fingerprintSum (es ++ fs) := by
  induction es with
  | nil => rfl
  | cons d es ih =>
    simp only [List.cons_append, fingerprintSum, ih]
    ac_rfl

mutual

theorem fingerprint_eq_of_alike :
    (a b : Expr) → alike a b = true → fingerprint a = fingerprint b
  | const _, b, h | var _ _, b, h => by cases b <;> simp_all [alike, fingerprint]
  | sum as, b, h | product as, b, h => by
    cases b <;> simp_all [alike, fingerprint]
    rw [fingerprintSum_eq_of_pairsOff as _ h.1 h.2]
  | pow b p, e, h => by
    cases e <;> simp_all [alike, fingerprint]
    rw [fingerprint_eq_of_alike b _ h.1, fingerprint_eq_of_alike p _ h.2]
  | apply _ e, b, h => by
    cases b <;> simp_all [alike, fingerprint]
    rw [fingerprint_eq_of_alike e _ h.2]
  | call _ _ _ as, e, h => by
    cases e <;> simp_all [alike, fingerprint]
    exact fingerprintList_eq_of_allAlike as _ h.2 _

theorem fingerprintSum_eq_of_pairsOff :
    (as bs : List Expr) → as.length = bs.length → pairsOff as bs = true →
      fingerprintSum as = fingerprintSum bs
  | [], bs, hl, _ => by
    rw [List.eq_nil_of_length_eq_zero hl.symm]
  | a :: as, bs, hl, h => by
    rw [pairsOff] at h
    split at h
    · next rest hr =>
      obtain ⟨us, b, vs, hb, rfl, rfl⟩ := exists_of_removeFirst hr
      rw [fingerprintSum_append_cons, fingerprintSum, fingerprint_eq_of_alike a b hb,
        fingerprintSum_eq_of_pairsOff as (us ++ vs) (by simp at hl ⊢; omega) h]
    · cases h

theorem fingerprintList_eq_of_allAlike :
    (as bs : List Expr) → allAlike as bs = true →
      ∀ h, fingerprintList h as = fingerprintList h bs
  | [], bs, h => by cases bs <;> simp_all [allAlike]
  | a :: as, bs, h => by
    cases bs <;> simp_all [allAlike, fingerprintList]
    rw [fingerprint_eq_of_alike a _ h.1]
    exact fun k => fingerprintList_eq_of_allAlike as _ h.2 _

end

def distinct (es : List Expr) : List Expr :=
  Symbolic.distinct fingerprint same es

/-- The expressions of a list that are equal neither to `e` nor to an earlier one. -/
def distinctOthers (e : Expr) (es : List Expr) : List Expr :=
  distinctFrom fingerprint same (Buckets.empty.push e.fingerprint e) es

end Expr

/-- A table with a value for each of some expressions. -/
structure Table (α : Type) where
  buckets : Buckets (Expr × α)

namespace Table

variable {α : Type}

def empty : Table α := ⟨.empty⟩

/-- The value that was last put in for an expression. -/
def get? (t : Table α) (e : Expr) : Option α :=
  (t.buckets.find? e.fingerprint fun p => e.same p.1).map (·.2)

def insert (t : Table α) (e : Expr) (x : α) : Table α :=
  ⟨t.buckets.push e.fingerprint (e, x)⟩

def contains (t : Table α) (e : Expr) : Bool := (t.get? e).isSome

end Table

end Symbolic
