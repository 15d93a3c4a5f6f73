import Symbolic.Proofs.Program.Machine

/-!
Instructions that share cells compute what they compute with a cell each. `GraphCode.shared` lets
them share cells as these are given out, `GraphCode.separate` does not; both are `Allocated`, so a
run of either gives the `results`. The main statement is `allocation_sound`.
-/

namespace Symbolic

namespace GraphCode

/-- Graph code whose instructions share cells. -/
def shared (code : List Instruction) (output : Nat) : GraphCode :=
  let a := Allocation.ofCode code
  ⟨code, a.cells.toArray, a.count, output⟩

/-- Graph code whose instructions have a cell each. -/
def separate (code : List Instruction) (output : Nat) : GraphCode :=
  ⟨code, Array.range code.length, code.length, output⟩

variable {code : List Instruction}

theorem allocated_shared (h : Forward code) (output : Nat) : (shared code output).Allocated := by
  obtain ⟨hlen, hbound, hspares⟩ := Allocation.ofCode_spec code
  exact ⟨h, by rw [shared, List.size_toArray, hlen], hbound, hspares⟩

theorem allocated_separate (h : Forward code) (output : Nat) :
    (separate code output).Allocated := by
  have hcell {i k : Nat} (hk : (separate code output).cells.toList[i]? = some k) :
      i < code.length ∧ k = i := by
    rw [separate, Array.toList_range, List.getElem?_eq_some_iff] at hk
    obtain ⟨hi, rfl⟩ := hk
    exact ⟨by rwa [List.length_range] at hi, List.getElem_range hi⟩
  refine ⟨h, Array.size_range, fun k hk => ?_, fun n _ k hk j hj _ hkj => ?_⟩
  · obtain ⟨i, hi⟩ := List.getElem?_of_mem hk
    obtain ⟨hlt, rfl⟩ := hcell hi
    exact hlt
  · obtain ⟨-, rfl⟩ := hcell hk
    obtain ⟨-, rfl⟩ := hcell hkj
    exact Nat.lt_irrefl _ hj

end GraphCode

open GraphCode

/-- Where two instructions have one cell, the earlier result has been taken for the last time. -/
theorem exists_last_of_same_cell {code : List Instruction} {i j k : Nat} (hj : j < i)
    (hi : (Allocation.ofCode code).cells[i]? = some k)
    (hk : (Allocation.ofCode code).cells[j]? = some k) :
    ∃ l, IsLastReader code j l ∧ l ≤ i := by
  obtain ⟨-, -, hspares⟩ := Allocation.ofCode_spec code
  have hdead : ¬ Allocation.Live (fun j => lastReaderFrom j 0 code) (i + 1) j :=
    fun hlive => hspares i (Nat.zero_le i) k hi j hj hlive hk
  rw [Allocation.Live] at hdead
  push Not at hdead
  obtain ⟨l, hl, hlt⟩ := hdead
  exact ⟨l, lastReaderFrom_eq_some.1 hl, by omega⟩

/-- Cells are given out soundly to instructions that take earlier results: a cell is one of those
that are counted; it is given out again only to the last reader of its result or later; and with
any contents at the start, a run gives what it gives when every instruction has a cell of its own. -/
theorem allocation_sound {code : List Instruction} (h : Forward code) :
    (∀ k ∈ (Allocation.ofCode code).cells, k < (Allocation.ofCode code).count) ∧
    (∀ i j k : Nat, j < i → (Allocation.ofCode code).cells[i]? = some k →
      (Allocation.ofCode code).cells[j]? = some k →
      ∃ l, IsLastReader code j l ∧ l ≤ i) ∧
    ∀ (α : Type) [Scalar α] (params cells ownCells : Array α) (output : Nat),
      Unread code output → cells.size = (Allocation.ofCode code).count →
      ownCells.size = code.length →
      ((shared code output).run params cells).1 = ((separate code output).run params ownCells).1 := by
  refine ⟨(Allocation.ofCode_spec code).2.1, fun i j k hj hi => exists_last_of_same_cell hj hi, ?_⟩
  intro α _ params cells ownCells output hout hsize hown
  calc ((shared code output).run params cells).1
      = (results params code)[output]?.getD Scalar.undefined :=
        run_eq (allocated_shared h output) hout hsize
    _ = ((separate code output).run params ownCells).1 :=
        (run_eq (allocated_separate h output) hout hown).symm

/-- The code of `((x + y) * x) + 2`. -/
def sumTimesParameter : List Instruction :=
  [.parameter 0, .parameter 1, .binary .add 0 1, .binary .multiply 2 0, .constant 2,
    .binary .add 3 4]

theorem forward_sumTimesParameter : Forward sumTimesParameter := by
  have hall : ∀ i : Fin 6, ∀ j ∈ (sumTimesParameter.get i).inputs, j < i.val := by decide
  intro i x hx
  obtain ⟨hi, rfl⟩ := List.getElem?_eq_some_iff.1 hx
  exact hall ⟨i, hi⟩

/-- Its six results fit into two cells. -/
theorem allocation_sound_two_cells :
    Allocation.ofCode sumTimesParameter = ⟨[0, 1, 1, 0, 1, 0], 2⟩ ∧
      ((shared sumTimesParameter 5).run #[(3 : Float), 4] #[0, 0]).1 =
        ((separate sumTimesParameter 5).run #[3, 4] #[0, 0, 0, 0, 0, 0]).1 := by
  have hunread : Unread sumTimesParameter 5 := by
    rw [Unread]
    decide
  exact ⟨by decide, (allocation_sound forward_sumTimesParameter).2.2 Float _ _ _ 5 hunread (by decide) rfl⟩

end Symbolic
