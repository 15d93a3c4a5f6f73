import Symbolic.Expr.Basic

/-!
Whether two expressions are one and the same, down to the order of operands and the sites of
variables. What both sides hold in one place is not looked through: functions that call one another
often would otherwise be compared anew on every way that leads to them.
-/

namespace Symbolic.Expr

/-- Whether two things are one and the same. -/
abbrev Verdict {α : Type} (a b : α) := { r : Bool // r = true ↔ a = b }

/-- The verdict on two expressions, which is worked out only if they are held apart. -/
@[inline] def verdictUnlessShared {a b : Expr} (v : Unit → Verdict a b) : Verdict a b :=
  ⟨withPtrEq a b (fun _ => (v ()).1) (v ()).2.2, (v ()).2⟩

mutual

def identical : (a b : Expr) → Verdict a b
  | const a, e =>
    match e with
    | const b => ⟨a == b, by simp⟩
    | var _ _ | sum _ | product _ | pow _ _ | apply _ _ | call _ _ _ _ => ⟨false, by simp⟩
  | var s k, e =>
    match e with
    | var t l => ⟨k == l && s == t, by simp [and_comm]⟩
    | const _ | sum _ | product _ | pow _ _ | apply _ _ | call _ _ _ _ => ⟨false, by simp⟩
  | sum as, e =>
    match e with
    | sum bs => ⟨(identicalAll as bs).1, by simp [(identicalAll as bs).2]⟩
    | const _ | var _ _ | product _ | pow _ _ | apply _ _ | call _ _ _ _ => ⟨false, by simp⟩
  | product as, e =>
    match e with
    | product bs => ⟨(identicalAll as bs).1, by simp [(identicalAll as bs).2]⟩
    | const _ | var _ _ | sum _ | pow _ _ | apply _ _ | call _ _ _ _ => ⟨false, by simp⟩
  | pow b p, e =>
    match e with
    | pow b' p' =>
      ⟨(verdictUnlessShared fun _ => identical b b').1 &&
        (verdictUnlessShared fun _ => identical p p').1, by
        simp [(verdictUnlessShared fun _ => identical b b').2,
          (verdictUnlessShared fun _ => identical p p').2]⟩
    | const _ | var _ _ | sum _ | product _ | apply _ _ | call _ _ _ _ => ⟨false, by simp⟩
  | apply f a, e =>
    match e with
    | apply g b =>
      ⟨f == g && (verdictUnlessShared fun _ => identical a b).1, by
        simp [(verdictUnlessShared fun _ => identical a b).2]⟩
    | const _ | var _ _ | sum _ | product _ | pow _ _ | call _ _ _ _ => ⟨false, by simp⟩
  | call f ps b as, e =>
    match e with
    | call g qs b' bs =>
      ⟨f == g && ps == qs && (verdictUnlessShared fun _ => identical b b').1 &&
        (identicalAll as bs).1, by
        simp [(verdictUnlessShared fun _ => identical b b').2, (identicalAll as bs).2,
          and_assoc]⟩
    | const _ | var _ _ | sum _ | product _ | pow _ _ | apply _ _ => ⟨false, by simp⟩

def identicalAll : (as bs : List Expr) → Verdict as bs
  | [], [] => ⟨true, by simp⟩
  | [], _ :: _ | _ :: _, [] => ⟨false, by simp⟩
  | a :: as, b :: bs =>
    ⟨(verdictUnlessShared fun _ => identical a b).1 && (identicalAll as bs).1, by
      simp [(verdictUnlessShared fun _ => identical a b).2, (identicalAll as bs).2]⟩

end

instance : DecidableEq Expr := fun a b =>
  decidable_of_iff _ (verdictUnlessShared fun _ => identical a b).2

end Symbolic.Expr
