import Mathlib.Data.List.Induction
import Symbolic.Program.Machine
import Symbolic.Proofs.Program.Cells

/-!
Running graph code. `results` says what the instructions compute when every result has a place of
its own. A run in shared cells has the same results: `Holds` says that the cells of the live results
hold them, and every instruction keeps it so.
-/

namespace Symbolic

variable {α : Type} [Scalar α]

/-- The value of an instruction, given the results that it may take. -/
def Instruction.value (params : Array α) (results : List α) : Instruction → α
  | constant q => Scalar.ofRat q
  | parameter i => parameterValue params i
  | unary f a => Scalar.unary f (results[a]?.getD Scalar.undefined)
  | binary f a b =>
    Scalar.binary f (results[a]?.getD Scalar.undefined) (results[b]?.getD Scalar.undefined)

def results (params : Array α) (code : List Instruction) : List α :=
  code.foldl (fun rs x => rs ++ [x.value params rs]) []

theorem results_concat (params : Array α) (code : List Instruction) (x : Instruction) :
    results params (code ++ [x]) =
      results params code ++ [x.value params (results params code)] := by
  rw [results, List.foldl_concat]
  rfl

theorem length_results (params : Array α) (code : List Instruction) :
    (results params code).length = code.length := by
  induction code using List.reverseRecOn with
  | nil => rfl
  | append_singleton code x ih => rw [results_concat, List.length_append, ih, List.length_append]; rfl

theorem results_prefix (params : Array α) {code code' : List Instruction} (h : code <+: code') :
    results params code <+: results params code' := by
  obtain ⟨added, rfl⟩ := h
  induction added using List.reverseRecOn with
  | nil => simp
  | append_singleton added x ih =>
    rw [← List.append_assoc, results_concat]
    exact ih.trans (List.prefix_append _ _)

/-- Every instruction takes results of earlier ones. -/
def Forward (code : List Instruction) : Prop :=
  ∀ (i : Nat) x, code[i]? = some x → ∀ j ∈ x.inputs, j < i

theorem Forward.concat {code : List Instruction} {x : Instruction} (h : Forward code)
    (hx : ∀ j ∈ x.inputs, j < code.length) : Forward (code ++ [x]) := by
  intro i y hy
  rcases Nat.lt_trichotomy i code.length with hi | rfl | hi
  · rw [List.getElem?_append_left hi] at hy
    exact h i y hy
  · rw [List.getElem?_concat_length] at hy
    cases hy
    exact hx
  · rw [List.getElem?_eq_none (by simp; omega)] at hy
    cases hy

/-- No instruction takes the result at `j`. -/
def Unread (code : List Instruction) (j : Nat) : Prop := ∀ x ∈ code, j ∉ x.inputs

/-- What comes last is taken by no instruction. -/
theorem Forward.unread {code : List Instruction} (h : Forward code) {j : Nat}
    (hj : j + 1 = code.length) : Unread code j := by
  intro x hx hin
  obtain ⟨n, hn, rfl⟩ := List.mem_iff_getElem.1 hx
  have hlt := h n _ (List.getElem?_eq_getElem hn) j hin
  omega

theorem lastReaderFrom_eq_none {code : List Instruction} {j : Nat} :
    lastReaderFrom j 0 code = none ↔ Unread code j := by
  constructor
  · intro h x hx hj
    obtain ⟨n, hn⟩ := List.getElem?_of_mem hx
    obtain ⟨k, hk, -⟩ := exists_lastReaderFrom hn hj 0
    cases h.symm.trans hk
  · intro h
    cases hk : lastReaderFrom j 0 code with
    | none => rfl
    | some k =>
      obtain ⟨n, x, -, hx, hin⟩ := reader_of_lastReaderFrom hk
      exact absurd hin (h x (List.mem_of_getElem? hx))

/-- Instruction `k` takes the result at `j`, and no later one does. -/
def IsLastReader (code : List Instruction) (j k : Nat) : Prop :=
  (∃ x, code[k]? = some x ∧ j ∈ x.inputs) ∧
    ∀ (i : Nat) x, code[i]? = some x → j ∈ x.inputs → i ≤ k

theorem lastReaderFrom_eq_some {code : List Instruction} {j k : Nat} :
    lastReaderFrom j 0 code = some k ↔ IsLastReader code j k := by
  constructor
  · intro h
    obtain ⟨n, x, hn, hx, hj⟩ := reader_of_lastReaderFrom h
    rw [Nat.zero_add] at hn
    subst hn
    refine ⟨⟨x, hx, hj⟩, fun i y hy hi => ?_⟩
    obtain ⟨k', hk', hle⟩ := exists_lastReaderFrom hy hi 0
    cases h.symm.trans hk'
    rwa [Nat.zero_add] at hle
  · rintro ⟨⟨x, hx, hj⟩, hlast⟩
    obtain ⟨k', hk', hle⟩ := exists_lastReaderFrom hx hj 0
    obtain ⟨n, y, hn, hy, hj'⟩ := reader_of_lastReaderFrom hk'
    rw [Nat.zero_add] at hn hle
    rw [hk', hn, Nat.le_antisymm (hlast n y hy hj') (hn ▸ hle)]

instance (code : List Instruction) (j k : Nat) : Decidable (IsLastReader code j k) :=
  decidable_of_iff _ lastReaderFrom_eq_some

namespace GraphCode

def last (c : GraphCode) (j : Nat) : Option Nat := lastReaderFrom j 0 c.code

/-- Every instruction has a cell, which is not that of a result that is still to be taken. -/
structure Allocated (c : GraphCode) : Prop where
  forward : Forward c.code
  size : c.cells.size = c.code.length
  bound : ∀ k ∈ c.cells.toList, k < c.count
  spares : Allocation.Spares c.last c.cells.toList 0

variable {c : GraphCode} {params : Array α}

/-- After the instructions `done`, the cells of the live results hold them. -/
def Holds (c : GraphCode) (params : Array α) (done : List Instruction) (cells : Array α) : Prop :=
  ∀ j x, Allocation.Live c.last done.length j → (results params done)[j]? = some x →
    c.read cells j = x

theorem value_eq (cells : Array α) (rs : List α) (x : Instruction)
    (h : ∀ j ∈ x.inputs, c.read cells j = rs[j]?.getD Scalar.undefined) :
    c.value params cells x = x.value params rs := by
  cases x with
  | constant q => rfl
  | parameter i => rfl
  | unary f a => rw [value, h a (by simp [Instruction.inputs]), Instruction.value]
  | binary f a b =>
    rw [value, h a (by simp [Instruction.inputs]), h b (by simp [Instruction.inputs]),
      Instruction.value]

theorem exists_cell (h : c.Allocated) {i : Nat} (hi : i < c.code.length) :
    ∃ k, c.cells[i]? = some k ∧ k < c.count := by
  have hk : i < c.cells.size := h.size ▸ hi
  exact ⟨c.cells[i], Array.getElem?_eq_getElem hk, h.bound _ (Array.getElem_mem_toList hk)⟩

theorem write_eq {β : Type} {cells : Array β} {i k : Nat} (hk : c.cells[i]? = some k) (x : β) :
    c.write cells i x = cells.setIfInBounds k x := by
  rw [write, hk]

theorem Holds.step (h : c.Allocated) {done rest : List Instruction} {x : Instruction}
    (hcode : c.code = done ++ x :: rest) {cells : Array α} (hsize : cells.size = c.count)
    (hc : c.Holds params done cells) :
    c.Holds params (done ++ [x]) (c.write cells done.length (c.value params cells x)) := by
  have hx : c.code[done.length]? = some x := by
    rw [hcode, List.getElem?_append_right (Nat.le_refl _), Nat.sub_self]
    rfl
  -- what the instruction takes is still live, so the cells hold it
  have hvalue : c.value params cells x = x.value params (results params done) := by
    refine value_eq cells _ x fun j hj => ?_
    have hlt : j < (results params done).length := by
      rw [length_results]
      exact h.forward _ x hx j hj
    have hlive : Allocation.Live c.last done.length j := by
      intro k hk
      obtain ⟨k', hk', hle⟩ := exists_lastReaderFrom hx hj 0
      obtain rfl := Option.some.inj (hk.symm.trans hk')
      omega
    rw [hc j _ hlive (List.getElem?_eq_getElem hlt), List.getElem?_eq_getElem hlt]
    rfl
  obtain ⟨k, hk, hlt⟩ := exists_cell h (List.getElem?_eq_some_iff.1 hx).1
  intro j y hlive hy
  rw [results_concat] at hy
  rw [List.length_append, List.length_singleton] at hlive
  rw [write_eq hk, hvalue, read]
  rcases Nat.lt_or_ge j (results params done).length with hj | hj
  · -- the cell is another one
    rw [List.getElem?_append_left hj] at hy
    rw [length_results] at hj
    obtain ⟨k', hk', -⟩ := exists_cell h (Nat.lt_trans hj (List.getElem?_eq_some_iff.1 hx).1)
    have hne : k ≠ k' := by
      rintro rfl
      rw [← Array.getElem?_toList] at hk hk'
      exact h.spares done.length (Nat.zero_le _) k hk j hj hlive hk'
    have hold := hc j y (hlive.mono (Nat.le_succ _)) hy
    rw [read, hk', Option.bind_some] at hold
    rw [hk', Option.bind_some, Array.getElem?_setIfInBounds_ne hne, hold]
  · rw [List.getElem?_append_right hj] at hy
    have hj' : j = done.length := by
      have := (List.getElem?_eq_some_iff.1 hy).1
      rw [length_results] at hj this
      simp at this
      omega
    subst hj'
    rw [length_results, Nat.sub_self] at hy
    cases hy
    -- the cell that was written
    rw [hk, Option.bind_some, Array.getElem?_setIfInBounds_self_of_lt (hsize ▸ hlt)]
    rfl

theorem size_write {β : Type} (cells : Array β) (i : Nat) (x : β) :
    (c.write cells i x).size = cells.size := by
  rw [write]
  split
  · exact Array.size_setIfInBounds
  · rfl

theorem Holds.runFrom (h : c.Allocated) {done rest : List Instruction}
    (hcode : c.code = done ++ rest) {cells : Array α} (hsize : cells.size = c.count)
    (hc : c.Holds params done cells) :
    c.Holds params c.code (c.runFrom params done.length cells rest) := by
  induction rest generalizing done cells with
  | nil =>
    rw [List.append_nil] at hcode
    rw [hcode]
    exact hc
  | cons x rest ih =>
    have hdone : (done ++ [x]).length = done.length + 1 := by simp
    rw [GraphCode.runFrom, ← hdone]
    refine ih (by rw [hcode, List.append_assoc]; rfl) ?_ (hc.step h hcode hsize)
    rw [size_write, hsize]

/-- A run, in cells with any contents, gives the result that is put out, if nothing takes it. -/
theorem run_eq (h : c.Allocated) (hout : Unread c.code c.output) {cells : Array α}
    (hsize : cells.size = c.count) :
    (c.run params cells).1 = (results params c.code)[c.output]?.getD Scalar.undefined := by
  have hempty : c.Holds params [] cells := fun j x _ hx => by cases hx
  have hend := hempty.runFrom h rfl hsize
  rcases Nat.lt_or_ge c.output c.code.length with hlt | hge
  · rw [← length_results params] at hlt
    rw [List.getElem?_eq_getElem hlt, Option.getD_some]
    refine hend c.output _ (fun k hk => ?_) (List.getElem?_eq_getElem hlt)
    rw [last, lastReaderFrom_eq_none.2 hout] at hk
    cases hk
  · -- there is no such result, and no cell for it
    rw [List.getElem?_eq_none (by rwa [length_results]), run, read,
      Array.getElem?_eq_none (by rwa [h.size])]
    rfl

end GraphCode

end Symbolic
