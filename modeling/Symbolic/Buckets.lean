import Std.Data.TreeMap

/-!
Buckets: entries put away under a number, to be found again by the number and a test. What the
test accepts has to lie under that number, so only one bucket is looked through.
-/

namespace Symbolic

/-- Entries in buckets, the newest of a bucket first. -/
structure Buckets (α : Type) where
  entries : Std.TreeMap UInt64 (List α)

namespace Buckets

variable {α : Type}

def empty : Buckets α := ⟨{}⟩

def find? (b : Buckets α) (key : UInt64) (p : α → Bool) : Option α :=
  (b.entries.getD key []).find? p

def push (b : Buckets α) (key : UInt64) (x : α) : Buckets α :=
  ⟨b.entries.insert key (x :: b.entries.getD key [])⟩

theorem find?_empty (key : UInt64) (p : α → Bool) : (empty : Buckets α).find? key p = none := by
  simp [empty, find?]

/-- What is found after one more entry is that entry, or what was found before. -/
theorem find?_push (b : Buckets α) (key k : UInt64) (x : α) (p : α → Bool) :
    (b.push key x).find? k p = if key = k && p x then some x else b.find? k p := by
  rw [find?, push, Std.TreeMap.getD_insert]
  by_cases hk : key = k
  · subst hk
    by_cases hp : p x = true <;> simp [find?, hp]
  · have : compare key k ≠ .eq := fun hc => hk (Std.LawfulEqOrd.eq_of_compare hc)
    simp [find?, hk, this]

end Buckets

/-- Of the elements `xs`, those that are not among the entries of `seen` nor equal to an earlier
one. Equal elements need equal keys. -/
def distinctFrom {α : Type} (key : α → UInt64) (eq : α → α → Bool) (seen : Buckets α) :
    List α → List α
  | [] => []
  | x :: xs =>
    if (seen.find? (key x) (eq x)).isSome then distinctFrom key eq seen xs
    else x :: distinctFrom key eq (seen.push (key x) x) xs

def distinct {α : Type} (key : α → UInt64) (eq : α → α → Bool) (xs : List α) : List α :=
  distinctFrom key eq .empty xs

end Symbolic
