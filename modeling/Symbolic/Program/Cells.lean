import Symbolic.Program.Instruction

/-!
Cells for the results of a graph. A result keeps its cell until the last instruction that takes it;
that instruction may put its own result there. A result that nothing takes keeps its cell for good.
-/

namespace Symbolic

/-- The last of the instructions, counted from `i`, that takes the result at `j`. -/
def lastReaderFrom (j i : Nat) : List Instruction → Option Nat
  | [] => none
  | x :: xs =>
    match lastReaderFrom j (i + 1) xs with
    | some k => some k
    | none => if x.inputs.contains j then some i else none

/-- Note instruction `i` as a reader of the results that it takes. -/
def noteReader (i : Nat) (known : Array (Option Nat)) (inputs : List Nat) : Array (Option Nat) :=
  inputs.foldl (fun known j => known.setIfInBounds j (some i)) known

/-- Note the readers among the instructions, counted from `i`; a later one takes the place of an
earlier one. -/
def noteReaders (i : Nat) (known : Array (Option Nat)) : List Instruction → Array (Option Nat)
  | [] => known
  | x :: xs => noteReaders (i + 1) (noteReader i known x.inputs) xs

/-- For each instruction, the last one that takes its result. -/
def lastReaders (code : List Instruction) : List (Option Nat) :=
  (noteReaders 0 (Array.replicate code.length none) code).toList

theorem getElem?_noteReader (i j : Nat) (inputs : List Nat) (known : Array (Option Nat)) :
    (noteReader i known inputs)[j]? =
      known[j]?.map fun old => if inputs.contains j then some i else old := by
  induction inputs generalizing known with
  | nil => simp [noteReader]
  | cons k ks ih =>
    rw [noteReader, List.foldl_cons, ← noteReader, ih, Array.getElem?_setIfInBounds]
    by_cases hk : k = j
    · subst hk
      by_cases h : k < known.size <;> simp [h]
    · simp [hk, Ne.symm hk]

theorem getElem?_noteReaders (i j : Nat) (code : List Instruction)
    (known : Array (Option Nat)) :
    (noteReaders i known code)[j]? =
      known[j]?.map fun old => (lastReaderFrom j i code).or old := by
  induction code generalizing i known with
  | nil => simp [noteReaders, lastReaderFrom]
  | cons x xs ih =>
    rw [noteReaders, ih, getElem?_noteReader, Option.map_map]
    congr 1
    funext old
    rw [lastReaderFrom]
    cases lastReaderFrom j (i + 1) xs <;> by_cases h : j ∈ x.inputs <;> simp [h]

/-- One pass finds what looking for the last reader of each result finds. -/
theorem lastReaders_eq (code : List Instruction) :
    lastReaders code = (List.range code.length).map fun j => lastReaderFrom j 0 code := by
  apply List.ext_getElem?
  intro j
  rw [lastReaders, Array.getElem?_toList, getElem?_noteReaders, List.getElem?_map,
    Array.getElem?_replicate]
  by_cases h : j < code.length <;> simp [h]

/-- The cell of each instruction, and how many cells there are. -/
structure Allocation where
  cells : List Nat
  count : Nat
deriving DecidableEq

namespace Allocation

def insertCell (c : Nat) : List Nat → List Nat
  | [] => [c]
  | d :: ds => if c ≤ d then c :: d :: ds else d :: insertCell c ds

/-- What is known of the cells before an instruction: those that are free, in order; those in use
with the instruction that will free each; and how many there are in all. -/
structure Pool where
  free : List Nat
  held : List (Nat × Nat)
  count : Nat

namespace Pool

def empty : Pool := ⟨[], [], 0⟩

/-- Free the cells whose results are taken last by instruction `i`. -/
def release (i : Nat) (p : Pool) : Pool :=
  let (ended, held) := p.held.partition (·.1 = i)
  { p with free := ended.foldl (fun free h => insertCell h.2 free) p.free, held }

/-- Take the least free cell, or a new one. -/
def take (p : Pool) : Nat × Pool :=
  match p.free with
  | c :: free => (c, { p with free })
  | [] => (p.count, { p with count := p.count + 1 })

/-- Note when a cell is to be freed, if ever. -/
def hold (last : Option Nat) (c : Nat) (p : Pool) : Pool :=
  match last with
  | some k => { p with held := (k, c) :: p.held }
  | none => p

end Pool

/-- The cells of the instructions from `i` on, given the last use of each. -/
def allocateFrom (i : Nat) (p : Pool) : List (Option Nat) → Allocation
  | [] => ⟨[], p.count⟩
  | last :: rest =>
    let (c, p) := (p.release i).take
    let a := allocateFrom (i + 1) (p.hold last c) rest
    ⟨c :: a.cells, a.count⟩

def ofCode (code : List Instruction) : Allocation :=
  allocateFrom 0 .empty (lastReaders code)

end Allocation

end Symbolic
