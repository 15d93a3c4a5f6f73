import Mathlib.Data.Finset.Lattice.Fold
import Mathlib.Order.Lattice.Nat
import Symbolic.Proofs.Program.Allocation

/-!
Cells are given out sparingly. While an instruction puts its result away, that result needs a cell,
and so does every earlier one that is taken later on or never; how many they are is the `pressure` at
the instruction. A new cell is opened only where all the others are needed (`Counts.take_count`), so
there are as many as the greatest pressure. Results that need a cell at one time cannot share one, so
no other way to share them out has fewer (`pressure_le_card`). The main statement is
`allocation_least`.
-/

namespace Symbolic

theorem Forward.lt_lastReaderFrom {code : List Instruction} (h : Forward code) {j k : Nat}
    (hk : lastReaderFrom j 0 code = some k) : j < k := by
  obtain ⟨⟨x, hx, hj⟩, -⟩ := lastReaderFrom_eq_some.1 hk
  exact h k x hx j hj

namespace Allocation

instance (last : Nat → Option Nat) (i j : Nat) : Decidable (Live last i j) :=
  inferInstanceAs (Decidable (∀ k ∈ last j, i ≤ k))

theorem live_succ_iff {last : Nat → Option Nat} {i j : Nat} :
    Live last (i + 1) j ↔ last j = none ∨ ∃ k, last j = some k ∧ i < k := by
  rw [Live]
  cases last j with
  | none => simp
  | some k =>
    simp only [Option.some.injEq, forall_eq', reduceCtorEq, false_or, exists_eq_left']
    exact Nat.succ_le_iff

/-- The result at `j` needs a cell while instruction `i` puts its own away: it is that one, or it is
taken by a later instruction, or by none. -/
def Needed (last : Nat → Option Nat) (i j : Nat) : Prop := j = i ∨ Live last (i + 1) j

instance (last : Nat → Option Nat) (i j : Nat) : Decidable (Needed last i j) :=
  inferInstanceAs (Decidable (_ ∨ _))

/-- How many results need a cell while instruction `i` puts its own away. -/
def pressure (last : Nat → Option Nat) (i : Nat) : Nat :=
  ((Finset.range (i + 1)).filter (Needed last i)).card

/-- The greatest pressure at the first `n` instructions. -/
def peak (last : Nat → Option Nat) (n : Nat) : Nat := (Finset.range n).sup (pressure last)

/-- The last readers, from instruction `i` on, of the first `n` results. -/
def waiting (last : Nat → Option Nat) (i n : Nat) : List Nat :=
  ((List.range n).filterMap last).filter (i ≤ ·)

def untaken (last : Nat → Option Nat) (n : Nat) : Nat :=
  (List.range n).countP fun j => (last j).isNone

variable {last : Nat → Option Nat} {i n : Nat} {p : Pool}

theorem waiting_succ (last : Nat → Option Nat) (i n : Nat) :
    waiting last i (n + 1) = waiting last i n ++ (last n).toList.filter (i ≤ ·) := by
  have hlast : [n].filterMap last = (last n).toList := by
    cases hl : last n <;> simp [hl]
  rw [waiting, List.range_succ, List.filterMap_append, List.filter_append, hlast, waiting]

theorem untaken_succ (last : Nat → Option Nat) (n : Nat) :
    untaken last (n + 1) = untaken last n + if (last n).isNone then 1 else 0 := by
  rw [untaken, List.range_succ, List.countP_append, List.countP_singleton]
  rfl

/-- A live result is waiting for its last reader, or it is never taken. -/
theorem card_live (last : Nat → Option Nat) (i n : Nat) :
    ((Finset.range n).filter (Live last i)).card = untaken last n + (waiting last i n).length := by
  induction n with
  | zero => rfl
  | succ n ih =>
    rw [Finset.range_add_one, Finset.filter_insert, waiting_succ, untaken_succ, List.length_append]
    cases hl : last n with
    | none =>
      have hlive : Live last i n := fun k hk => by
        rw [hl] at hk
        cases hk
      rw [if_pos hlive, Finset.card_insert_of_notMem (by simp), ih]
      simp
      omega
    | some k =>
      by_cases hk : i ≤ k
      · have hlive : Live last i n := fun k' hk' => by
          rw [hl, Option.some.injEq] at hk'
          omega
        rw [if_pos hlive, Finset.card_insert_of_notMem (by simp), ih]
        simp [hk]
        omega
      · rw [if_neg fun h => hk (h k hl), ih]
        simp [hk]

/-- Besides its own result, those before an instruction that are live after it. -/
theorem pressure_eq (last : Nat → Option Nat) (i : Nat) :
    pressure last i = untaken last i + (waiting last (i + 1) i).length + 1 := by
  have hsame : (Finset.range i).filter (Needed last i) =
      (Finset.range i).filter (Live last (i + 1)) := by
    refine Finset.filter_congr fun j hj => or_iff_right ?_
    exact Nat.ne_of_lt (Finset.mem_range.1 hj)
  rw [pressure, Finset.range_add_one, Finset.filter_insert, if_pos (.inl rfl),
    Finset.card_insert_of_notMem (by simp), hsame, card_live]

/-- What the cells of the first `n` results are in, where instruction `i` comes next: free, held for
the last reader of a result, or kept for good. -/
structure Counts (last : Nat → Option Nat) (i n : Nat) (p : Pool) : Prop where
  held : (p.held.map Prod.fst).Perm (waiting last i n)
  count : p.free.length + p.held.length + untaken last n = p.count

theorem Counts.release (h : Counts last i n p) : Counts last (i + 1) n (p.release i) where
  held := by
    have hheld : (p.release i).held = p.held.filter fun h => !decide (h.1 = i) := by
      rw [Pool.release, List.partition_eq_filter_filter]
      rfl
    have hwaiting : waiting last (i + 1) n = (waiting last i n).filter fun k => !decide (k = i) := by
      rw [waiting, waiting, List.filter_filter]
      refine List.filter_congr fun k _ => ?_
      rw [← decide_not, ← Bool.decide_and, decide_eq_decide]
      omega
    rw [hheld, hwaiting]
    have := h.held.filter fun k => !decide (k = i)
    rwa [List.filter_map] at this
  count := by
    have hlen := (Pool.release_perm i p).length_eq
    rw [Pool.cells, Pool.cells, List.length_append, List.length_append, List.length_map,
      List.length_map] at hlen
    have := h.count
    have hc : (p.release i).count = p.count := rfl
    omega

/-- A cell is opened only if all the others are needed. -/
theorem Counts.take_count (h : Counts last (i + 1) i p) :
    p.take.2.count = max p.count (pressure last i) := by
  have hc := h.count
  have hl : p.held.length = (waiting last (i + 1) i).length := by
    rw [← h.held.length_eq, List.length_map]
  rw [pressure_eq, Pool.take]
  split
  · next hf =>
    rw [hf, List.length_cons] at hc
    show p.count = _
    omega
  · next hf =>
    rw [hf, List.length_nil] at hc
    show p.count + 1 = _
    omega

theorem Pool.take_length (p : Pool) :
    p.take.2.free.length + p.take.2.held.length + p.count + 1 =
      p.free.length + p.held.length + p.take.2.count := by
  rw [take]
  split
  · next free hf =>
    rw [hf, List.length_cons]
    show free.length + p.held.length + p.count + 1 = free.length + 1 + p.held.length + p.count
    omega
  · show p.free.length + p.held.length + p.count + 1 = p.free.length + p.held.length + (p.count + 1)
    omega

theorem Counts.hold (h : Counts last (i + 1) i p) (hi : ∀ k, last i = some k → i < k) :
    Counts last (i + 1) (i + 1) (p.take.2.hold (last i) p.take.1) := by
  have hlen := p.take_length
  have hc := h.count
  have hheld : (p.take.2.held.map Prod.fst).Perm (waiting last (i + 1) i) := by
    rw [p.take_held]
    exact h.held
  cases hl : last i with
  | none =>
    refine ⟨?_, ?_⟩
    · rw [waiting_succ, hl, Option.toList_none, List.filter_nil, List.append_nil]
      exact hheld
    · rw [untaken_succ, hl]
      show p.take.2.free.length + p.take.2.held.length + (untaken last i + 1) = p.take.2.count
      omega
  | some k =>
    have hk : i + 1 ≤ k := hi k hl
    refine ⟨?_, ?_⟩
    · rw [waiting_succ, hl]
      show (k :: p.take.2.held.map Prod.fst).Perm _
      simp only [Option.toList_some, hk, List.filter_cons, decide_true, if_true, List.filter_nil]
      exact (hheld.cons k).trans (List.perm_append_singleton k _).symm
    · rw [untaken_succ, hl]
      show p.take.2.free.length + (p.take.2.held.length + 1) + (untaken last i + 0) = p.take.2.count
      omega

theorem peak_succ (last : Nat → Option Nat) (n : Nat) :
    peak last (n + 1) = max (peak last n) (pressure last n) := by
  rw [peak, Finset.range_add_one, Finset.sup_insert]
  exact max_comm _ _

/-- There are as many cells as the greatest pressure. -/
theorem allocateFrom_count {ls : List (Option Nat)} (h : Counts last i i p)
    (hp : p.count = peak last i) (hlast : ∀ j k, last j = some k → j < k)
    (hls : ∀ m l, ls[m]? = some l → last (i + m) = l) :
    (allocateFrom i p ls).count = peak last (i + ls.length) := by
  induction ls generalizing i p with
  | nil => exact hp
  | cons l ls ih =>
    have hl : last i = l := hls 0 l rfl
    have hnext := h.release.hold (hlast i)
    rw [hl] at hnext
    have hcount : ((p.release i).take.2.hold l (p.release i).take.1).count = peak last (i + 1) := by
      rw [peak_succ, ← hp]
      refine Eq.trans ?_ h.release.take_count
      cases l <;> rfl
    have := ih hnext hcount fun m l hm => by rw [← hls (m + 1) l hm]; congr 1; omega
    rw [allocateFrom, List.length_cons, Nat.add_comm ls.length 1, ← Nat.add_assoc]
    exact this

theorem counts_empty (last : Nat → Option Nat) : Counts last 0 0 .empty := ⟨.refl _, rfl⟩

theorem ofCode_count {code : List Instruction} (h : Forward code) :
    (ofCode code).count = peak (fun j => lastReaderFrom j 0 code) code.length := by
  have hlen : (lastReaders code).length = code.length := by
    rw [lastReaders_eq, List.length_map, List.length_range]
  have hlast (m : Nat) (l : Option Nat) (hm : (lastReaders code)[m]? = some l) :
      lastReaderFrom (0 + m) 0 code = l := by
    rw [lastReaders_eq, List.getElem?_map, Option.map_eq_some_iff] at hm
    obtain ⟨j, hj, rfl⟩ := hm
    obtain ⟨_, rfl⟩ := List.getElem?_eq_some_iff.1 hj
    rw [List.getElem_range, Nat.zero_add]
  rw [ofCode, allocateFrom_count (counts_empty _) rfl (fun _ _ => h.lt_lastReaderFrom) hlast, hlen,
    Nat.zero_add]

/-- Results that need a cell at one time have different ones, where no cell is given out again before
the last reader of its result. -/
theorem pressure_le_card {cells : List Nat} (hi : i < cells.length)
    (h : ∀ i j c : Nat, j < i → cells[i]? = some c → cells[j]? = some c → ∃ l, last j = some l ∧ l ≤ i) :
    pressure last i ≤ cells.toFinset.card := by
  have hcell {j : Nat} (hj : j ∈ (Finset.range (i + 1)).filter (Needed last i)) :
      j ≤ i ∧ Needed last i j ∧ cells[j]? = some (cells.getD j 0) := by
    obtain ⟨hj, hn⟩ := Finset.mem_filter.1 hj
    have hji : j ≤ i := Nat.le_of_lt_succ (Finset.mem_range.1 hj)
    refine ⟨hji, hn, ?_⟩
    rw [List.getD_eq_getElem?_getD, List.getElem?_eq_getElem (by omega)]
    rfl
  -- of two results in one cell, the earlier one is not needed any more
  have hapart {j j' : Nat} (hj : j ∈ (Finset.range (i + 1)).filter (Needed last i))
      (hj' : j' ∈ (Finset.range (i + 1)).filter (Needed last i))
      (heq : cells.getD j 0 = cells.getD j' 0) : ¬ j < j' := by
    intro hlt
    obtain ⟨-, hn, hc⟩ := hcell hj
    obtain ⟨hle, -, hc'⟩ := hcell hj'
    obtain ⟨l, hl, hlj⟩ := h j' j _ hlt hc' (heq ▸ hc)
    rcases hn with rfl | hlive
    · omega
    · have := hlive l hl
      omega
  refine Finset.card_le_card_of_injOn (cells.getD · 0) (fun j hj => ?_) fun j hj j' hj' heq => ?_
  · exact List.mem_toFinset.2 (List.mem_of_getElem? (hcell hj).2.2)
  · exact Nat.le_antisymm (Nat.le_of_not_lt (hapart hj' hj heq.symm)) (Nat.le_of_not_lt (hapart hj hj' heq))

end Allocation

open Allocation

/-- While instruction `i` puts its result away, the result at `j` needs a cell: it is that one, or
no instruction takes it, or the last that takes it comes later. -/
def NeedsCell (code : List Instruction) (i j : Nat) : Prop :=
  j = i ∨ Unread code j ∨ ∃ k, IsLastReader code j k ∧ i < k

theorem needed_iff {code : List Instruction} {i j : Nat} :
    Needed (fun j => lastReaderFrom j 0 code) i j ↔ NeedsCell code i j := by
  rw [Needed, live_succ_iff, NeedsCell, lastReaderFrom_eq_none]
  simp only [lastReaderFrom_eq_some]

instance (code : List Instruction) (i j : Nat) : Decidable (NeedsCell code i j) :=
  decidable_of_iff _ needed_iff

/-- Cells are given out sparingly to instructions that take earlier results. They are as many as the
results that need one at the instruction where these are most. No other way to share cells, in which
a cell is given out again only to the last reader of its result or later, has fewer of them. -/
theorem allocation_least {code : List Instruction} (h : Forward code) :
    (ofCode code).count = (Finset.range code.length).sup
        (fun i => ((Finset.range (i + 1)).filter (NeedsCell code i)).card) ∧
      (ofCode code).cells.toFinset.card = (ofCode code).count ∧
      ∀ cells : List Nat, cells.length = code.length →
        (∀ i j c : Nat, j < i → cells[i]? = some c → cells[j]? = some c →
          ∃ l, IsLastReader code j l ∧ l ≤ i) →
        (ofCode code).count ≤ cells.toFinset.card := by
  have hbound (cells : List Nat) (hlen : cells.length = code.length)
      (hshare : ∀ i j c : Nat, j < i → cells[i]? = some c → cells[j]? = some c →
        ∃ l, IsLastReader code j l ∧ l ≤ i) : (ofCode code).count ≤ cells.toFinset.card := by
    rw [ofCode_count h]
    refine Finset.sup_le fun i hi => pressure_le_card ?_ fun i j c hj hi hc => ?_
    · rw [hlen]
      exact Finset.mem_range.1 hi
    · obtain ⟨l, hl, hle⟩ := hshare i j c hj hi hc
      exact ⟨l, lastReaderFrom_eq_some.2 hl, hle⟩
  obtain ⟨hlen, hcells, -⟩ := ofCode_spec code
  have hsub : (ofCode code).cells.toFinset ⊆ Finset.range (ofCode code).count := fun k hk =>
    Finset.mem_range.2 (hcells k (List.mem_toFinset.1 hk))
  refine ⟨?_, Nat.le_antisymm ?_ (hbound _ hlen fun i j c hj hi hc => ?_), hbound⟩
  · rw [ofCode_count h]
    exact Finset.sup_congr rfl fun i _ => congrArg _ (Finset.filter_congr fun j _ => needed_iff)
  · simpa using Finset.card_le_card hsub
  · exact exists_last_of_same_cell hj hi hc

/-- Two cells for `((x + y) * x) + 2`, where another way to share them out takes three. -/
theorem allocation_least_two_cells :
    (ofCode sumTimesParameter).count = 2 ∧
      (ofCode sumTimesParameter).count ≤ [0, 1, 2, 0, 1, 0].toFinset.card := by
  refine ⟨by decide, (allocation_least forward_sumTimesParameter).2.2 _ rfl fun i j c hj hi hc => ?_⟩
  have hall : ∀ i j : Fin 6, j < i → [0, 1, 2, 0, 1, 0][i] = [0, 1, 2, 0, 1, 0][j] →
      ∃ l : Fin 6, IsLastReader sumTimesParameter j l ∧ l ≤ i := by decide
  obtain ⟨hi', rfl⟩ := List.getElem?_eq_some_iff.1 hi
  obtain ⟨hj', hc⟩ := List.getElem?_eq_some_iff.1 hc
  obtain ⟨l, hl, hle⟩ := hall ⟨i, hi'⟩ ⟨j, hj'⟩ hj hc.symm
  exact ⟨l, hl, hle⟩

end Symbolic
