import Symbolic.Expr.Fingerprint

/-!
Like terms and like powers. `gather` puts the elements of a list into groups of one base; a group
keeps what each element contributes: its coefficient in a sum, its exponent in a product.

`groupAll` does so by looking through the groups for every element. For long lists `Gathering` looks
only through the groups whose base has the fingerprint of the new one; the groups are the same
(`gather_eq_groupAll`).
-/

namespace Symbolic.Expr

/-- Elements of one base: the first of them, and the contribution of each. -/
structure Group (α : Type) where
  base : Expr
  first : Expr
  parts : List α

namespace Group

variable {α : Type}

def add (part : α) (g : Group α) : Group α := { g with parts := g.parts ++ [part] }

/-- Add the element `e`, of the given base, to its group; a new base opens a group at the end. -/
def insert (e base : Expr) (part : α) : List (Group α) → List (Group α)
  | [] => [⟨base, e, [part]⟩]
  | g :: gs => if g.base.same base then g.add part :: gs else g :: insert e base part gs

theorem insert_eq (e base : Expr) (part : α) (gs : List (Group α)) :
    insert e base part gs =
      match gs.findIdx? (·.base.same base) with
      | some i => gs.modify i (add part)
      | none => gs ++ [⟨base, e, [part]⟩] := by
  induction gs with
  | nil => rfl
  | cons g gs ih =>
    rw [insert, List.findIdx?_cons]
    by_cases h : g.base.same base = true
    · simp [h]
    · simp only [h, Bool.false_eq_true, if_false, ih]
      cases gs.findIdx? (·.base.same base) with
      | none => rfl
      | some i => simp

end Group

/-- The groups of a list, in the order in which their bases are seen. -/
def groupAll {α : Type} (split : Expr → Expr × α) (es : List Expr) : List (Group α) :=
  es.foldl (fun gs e => Group.insert e (split e).1 (split e).2 gs) []

/-- Groups, and for each fingerprint the places of the groups whose base has it. -/
structure Gathering (α : Type) where
  groups : Array (Group α)
  places : Std.TreeMap UInt64 (List Nat)

namespace Gathering

variable {α : Type}

def empty : Gathering α := ⟨#[], {}⟩

def add (s : Gathering α) (e base : Expr) (part : α) : Gathering α :=
  let key := base.fingerprint
  let bucket := s.places.getD key []
  match bucket.find? fun i => s.groups[i]?.any (·.base.same base) with
  | some i => { s with groups := s.groups.modify i (Group.add part) }
  | none =>
    ⟨s.groups.push ⟨base, e, [part]⟩, s.places.insert key (bucket ++ [s.groups.size])⟩

/-- The places of the bases of a fingerprint are noted, all of them and in their order. -/
def Sound (s : Gathering α) : Prop :=
  ∀ key, s.places.getD key [] =
    (List.range s.groups.size).filter fun i => s.groups[i]?.any (·.base.fingerprint == key)

theorem empty_sound : (empty : Gathering α).Sound := by
  intro key
  simp [empty]

theorem find?_range_eq_findIdx? {β : Type} (q : β → Bool) (xs : List β) :
    (List.range xs.length).find? (fun i => xs[i]?.any q) = xs.findIdx? q := by
  induction xs with
  | nil => rfl
  | cons x xs ih =>
    rw [List.findIdx?_cons, List.length_cons, List.range_succ_eq_map, List.find?_cons,
      List.find?_map, ← ih]
    by_cases h : q x = true
    · simp [h]
    · simp only [List.getElem?_cons_zero, Option.any_some, h]
      rfl

/-- Looking under the fingerprint alone misses no group. -/
theorem Sound.find?_eq {s : Gathering α} (h : s.Sound) (base : Expr) :
    (s.places.getD base.fingerprint []).find? (fun i => s.groups[i]?.any (·.base.same base)) =
      s.groups.toList.findIdx? (·.base.same base) := by
  rw [h, List.find?_filter, ← find?_range_eq_findIdx?]
  simp only [Array.length_toList, Array.getElem?_toList]
  congr 1
  funext i
  cases hi : s.groups[i]? with
  | none => simp
  | some g =>
    by_cases hg : g.base.same base = true
    · have := fingerprint_eq_of_alike _ _ ((same_eq_alike _ _).symm.trans hg)
      simp [hg, this]
    · simp [hg]

theorem Sound.add_groups {s : Gathering α} (h : s.Sound) (e base : Expr) (part : α) :
    (s.add e base part).groups.toList = Group.insert e base part s.groups.toList := by
  rw [add, h.find?_eq, Group.insert_eq]
  cases s.groups.toList.findIdx? (·.base.same base) with
  | none => simp
  | some i => simp

theorem Sound.add {s : Gathering α} (h : s.Sound) (e base : Expr) (part : α) :
    (s.add e base part).Sound := by
  intro key
  rw [Gathering.add]
  split
  · next i hi =>
    simp only [h key, Array.size_modify]
    congr 1
    funext j
    rw [Array.getElem?_modify]
    split
    · cases s.groups[j]? <;> rfl
    · rfl
  · next hn =>
    simp only [Std.TreeMap.getD_insert, Array.size_push, List.range_succ, List.filter_append]
    have hr : ∀ k, (List.range s.groups.size).filter (fun i =>
          (s.groups.push ⟨base, e, [part]⟩)[i]?.any (·.base.fingerprint == k)) =
        (List.range s.groups.size).filter fun i =>
          s.groups[i]?.any (·.base.fingerprint == k) := by
      intro k
      apply List.filter_congr
      intro i hi
      have : i ≠ s.groups.size := Nat.ne_of_lt (List.mem_range.1 hi)
      simp [Array.getElem?_push, this]
    rw [hr, ← h key]
    by_cases hk : base.fingerprint = key
    · subst hk
      simp
    · have : compare base.fingerprint key ≠ .eq := fun hc => hk (Std.LawfulEqOrd.eq_of_compare hc)
      simp [hk, this]

end Gathering

def gather {α : Type} (split : Expr → Expr × α) (es : List Expr) : List (Group α) :=
  if es.length ≤ 16 then groupAll split es
  else (es.foldl (fun s e => s.add e (split e).1 (split e).2) Gathering.empty).groups.toList

theorem gather_eq_groupAll {α : Type} (split : Expr → Expr × α) (es : List Expr) :
    gather split es = groupAll split es := by
  have : ∀ (es : List Expr) (s : Gathering α), s.Sound →
      (es.foldl (fun s e => s.add e (split e).1 (split e).2) s).groups.toList =
        es.foldl (fun gs e => Group.insert e (split e).1 (split e).2 gs) s.groups.toList := by
    intro es
    induction es with
    | nil => intro s _; rfl
    | cons e es ih =>
      intro s h
      rw [List.foldl_cons, List.foldl_cons, ih _ (h.add _ _ _), h.add_groups]
  rw [gather]
  split
  · rfl
  · exact this es .empty Gathering.empty_sound

/-- A product of the given factors, without a node for a single one. -/
def bareProduct : List Expr → Expr
  | [e] => e
  | es => product es

/-- The first constant of a list and what stands around it. -/
def takeConst? : List Expr → Option (Rat × List Expr)
  | [] => none
  | const c :: es => some (c, es)
  | e :: es => (takeConst? es).map fun (c, rest) => (c, e :: rest)

/-- A term as base and coefficient. -/
def asMultiple : Expr → Expr × Rat
  | product fs =>
    match takeConst? fs with
    | some (c, rest) => (bareProduct rest, c)
    | none => (product fs, 1)
  | e => (e, 1)

/-- A factor as base and exponent; a power of a constant is a base of its own. -/
def asPower : Expr → Expr × Expr
  | pow b p => if b.isConst then (pow b p, const 1) else (b, p)
  | e => (e, const 1)

end Symbolic.Expr
