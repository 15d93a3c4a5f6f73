import Mathlib.Data.List.Nodup
import Mathlib.Data.List.Perm.Basic
import Symbolic.Program.Cells

/-!
Cells are given out so that no result that is still to be taken is written over. `Fits` is what
holds of the cells between two instructions; `Allocation.Spares` is what follows for a whole
allocation.
-/

namespace Symbolic

/-! The last reader of a result. -/

theorem reader_of_lastReaderFrom {j i k : Nat} {code : List Instruction}
    (h : lastReaderFrom j i code = some k) :
    ∃ n x, k = i + n ∧ code[n]? = some x ∧ j ∈ x.inputs := by
  induction code generalizing i with
  | nil => cases h
  | cons x xs ih =>
    rw [lastReaderFrom] at h
    split at h
    · next hk =>
      cases h
      obtain ⟨n, y, rfl, hy, hj⟩ := ih hk
      exact ⟨n + 1, y, by omega, hy, hj⟩
    · split at h
      · next hj =>
        cases h
        exact ⟨0, x, rfl, rfl, List.contains_iff_mem.1 hj⟩
      · cases h

theorem exists_lastReaderFrom {j n : Nat} {code : List Instruction} {x : Instruction}
    (hx : code[n]? = some x) (hj : j ∈ x.inputs) (i : Nat) :
    ∃ k, lastReaderFrom j i code = some k ∧ i + n ≤ k := by
  induction code generalizing n i with
  | nil => cases hx
  | cons y ys ih =>
    rw [lastReaderFrom]
    cases n with
    | zero =>
      cases hx
      cases hk : lastReaderFrom j (i + 1) ys with
      | none => exact ⟨i, if_pos (List.contains_iff_mem.2 hj), Nat.le_refl i⟩
      | some k =>
        obtain ⟨n, _, rfl, _⟩ := reader_of_lastReaderFrom hk
        exact ⟨_, rfl, by omega⟩
    | succ n =>
      obtain ⟨k, hk, hle⟩ := ih hx (i + 1)
      exact ⟨k, by rw [hk], by omega⟩

namespace Allocation

/-- The result at `j` is taken at instruction `i` or later, or its cell is never freed. -/
def Live (last : Nat → Option Nat) (i j : Nat) : Prop := ∀ k, last j = some k → i ≤ k

theorem Live.mono {last : Nat → Option Nat} {i i' j : Nat} (h : Live last i' j) (hi : i ≤ i') :
    Live last i j :=
  fun k hk => Nat.le_trans hi (h k hk)

def Pool.cells (p : Pool) : List Nat := p.held.map Prod.snd ++ p.free

/-- What the pool knows of the cells `cs` of the first results, where instruction `i` comes next: a
cell that is still to be freed is held, one that is never freed is left out, and no cell is known
twice. -/
structure Fits (last : Nat → Option Nat) (i : Nat) (cs : List Nat) (p : Pool) : Prop where
  held : ∀ j c k, cs[j]? = some c → last j = some k → i ≤ k → (k, c) ∈ p.held
  kept : ∀ j c, cs[j]? = some c → last j = none → c ∉ p.cells
  nodup : p.cells.Nodup
  bound : ∀ c, c ∈ cs ∨ c ∈ p.cells → c < p.count

theorem insertCell_perm (c : Nat) (ds : List Nat) : (insertCell c ds).Perm (c :: ds) := by
  induction ds with
  | nil => exact .refl _
  | cons d ds ih =>
    rw [insertCell]
    split
    · exact .refl _
    · exact (ih.cons d).trans (.swap c d ds)

theorem foldl_insertCell_perm (hs : List (Nat × Nat)) (free : List Nat) :
    (hs.foldl (fun free h => insertCell h.2 free) free).Perm (hs.map Prod.snd ++ free) := by
  induction hs generalizing free with
  | nil => exact .refl _
  | cons h hs ih =>
    rw [List.foldl_cons, List.map_cons]
    exact (ih _).trans (((insertCell_perm h.2 free).append_left _).trans List.perm_middle)

namespace Pool

theorem release_perm (i : Nat) (p : Pool) : (p.release i).cells.Perm p.cells := by
  have hsplit := List.filter_append_perm (fun h : Nat × Nat => decide (h.1 = i)) p.held
  rw [cells, release, List.partition_eq_filter_filter]
  refine ((foldl_insertCell_perm _ _).append_left _).trans ?_
  rw [← List.append_assoc, ← List.map_append]
  exact ((List.perm_append_comm.trans hsplit).map _).append_right _

theorem mem_release_held {i : Nat} {p : Pool} {h : Nat × Nat} :
    h ∈ (p.release i).held ↔ h ∈ p.held ∧ h.1 ≠ i := by
  rw [release, List.partition_eq_filter_filter]
  simp

theorem take_held (p : Pool) : p.take.2.held = p.held := by
  rw [take]
  split <;> rfl

theorem take_sublist (p : Pool) : p.take.2.cells.Sublist p.cells := by
  rw [cells, take_held, cells, take]
  split
  · next hf =>
    rw [hf]
    exact (List.sublist_cons_self _ _).append_left _
  · exact .refl _

theorem take_count (p : Pool) : p.count ≤ p.take.2.count := by
  rw [take]
  split
  · exact Nat.le_refl _
  · exact Nat.le_succ _

/-- The cell that is taken is one of those that were known, or a new one. -/
theorem take_cases (p : Pool) :
    p.take.1 ∈ p.free ∧ p.cells.Perm (p.take.1 :: p.take.2.cells) ∨
      p.take = (p.count, { p with count := p.count + 1 }) := by
  rw [take]
  split
  · next hf =>
    refine .inl ⟨by simp [hf], ?_⟩
    rw [cells, hf]
    exact List.perm_middle
  · exact .inr rfl

end Pool

variable {last : Nat → Option Nat} {i : Nat} {cs : List Nat} {p : Pool}

theorem Fits.release (h : Fits last i cs p) : Fits last (i + 1) cs (p.release i) where
  held j c k hc hk hi :=
    Pool.mem_release_held.2 ⟨h.held j c k hc hk (by omega), by simp only [ne_eq]; omega⟩
  kept j c hc hk hm := h.kept j c hc hk ((Pool.release_perm i p).mem_iff.1 hm)
  nodup := (Pool.release_perm i p).nodup_iff.2 h.nodup
  bound c hc := h.bound c (hc.imp_right (Pool.release_perm i p).mem_iff.1)

/-- The cell that is taken is not that of a live result. -/
theorem Fits.take_fresh (h : Fits last i cs p) {j : Nat} (hj : Live last i j) :
    cs[j]? ≠ some p.take.1 := by
  intro hc
  rcases p.take_cases with ⟨hfree, _⟩ | htake
  · cases hk : last j with
    | none => exact h.kept j _ hc hk (List.mem_append_right _ hfree)
    | some k =>
      -- it would be held and free at once
      have hheld := List.mem_map_of_mem (f := Prod.snd) (h.held j _ k hc hk (hj k hk))
      exact (List.nodup_append.1 h.nodup).2.2 _ hheld _ hfree rfl
  · rw [htake] at hc
    exact Nat.lt_irrefl _ (h.bound p.count (.inl (List.mem_of_getElem? hc)))

theorem Fits.take_nodup (h : Fits last i cs p) : (p.take.1 :: p.take.2.cells).Nodup := by
  rcases p.take_cases with ⟨_, hp⟩ | htake
  · exact hp.nodup_iff.1 h.nodup
  · rw [htake]
    exact List.nodup_cons.2 ⟨fun hm => Nat.lt_irrefl _ (h.bound p.count (.inr hm)), h.nodup⟩

theorem Fits.take_bound (h : Fits last i cs p) : p.take.1 < p.take.2.count := by
  rcases p.take_cases with ⟨hfree, _⟩ | htake
  · exact Nat.lt_of_lt_of_le (h.bound _ (.inr (List.mem_append_right _ hfree))) p.take_count
  · rw [htake]
    exact Nat.lt_succ_self _

theorem Fits.hold (h : Fits last i cs p) :
    Fits last i (cs ++ [p.take.1]) (p.take.2.hold (last cs.length) p.take.1) := by
  have hcell {j c : Nat} (hc : (cs ++ [p.take.1])[j]? = some c) :
      cs[j]? = some c ∨ j = cs.length ∧ c = p.take.1 := by
    rcases Nat.lt_trichotomy j cs.length with hj | rfl | hj
    · rw [List.getElem?_append_left hj] at hc
      exact .inl hc
    · rw [List.getElem?_concat_length] at hc
      exact .inr ⟨rfl, (Option.some.inj hc).symm⟩
    · rw [List.getElem?_eq_none (by simp; omega)] at hc
      cases hc
  have hnodup := List.nodup_cons.1 h.take_nodup
  have hbound {c : Nat} (hc : c ∈ cs ++ [p.take.1] ∨ c ∈ p.take.1 :: p.take.2.cells) :
      c < p.take.2.count := by
    rw [List.mem_append, List.mem_singleton, List.mem_cons] at hc
    rcases hc with (hc | rfl) | rfl | hc
    · exact Nat.lt_of_lt_of_le (h.bound c (.inl hc)) p.take_count
    · exact h.take_bound
    · exact h.take_bound
    · exact Nat.lt_of_lt_of_le (h.bound c (.inr (p.take_sublist.subset hc))) p.take_count
  -- a cell that is to be freed is held; one that is never freed is not known any more
  cases hl : last cs.length with
  | some l =>
    refine ⟨?_, ?_, h.take_nodup, fun c hc => hbound hc⟩
    · intro j c k hc hk hi
      rcases hcell hc with hc | ⟨rfl, rfl⟩
      · have := h.held j c k hc hk hi
        rw [← p.take_held] at this
        exact List.mem_cons_of_mem _ this
      · obtain rfl := Option.some.inj (hl.symm.trans hk)
        exact List.mem_cons_self
    · intro j c hc hk hm
      rcases hcell hc with hc | ⟨rfl, rfl⟩
      · rcases List.mem_cons.1 hm with rfl | hm
        · exact h.take_fresh (fun k hk' => by rw [hk] at hk'; cases hk') hc
        · exact h.kept j c hc hk (p.take_sublist.subset hm)
      · rw [hl] at hk
        cases hk
  | none =>
    refine ⟨?_, ?_, hnodup.2, fun c hc => hbound (hc.imp_right (List.mem_cons_of_mem _))⟩
    · intro j c k hc hk hi
      rcases hcell hc with hc | ⟨rfl, rfl⟩
      · have := h.held j c k hc hk hi
        rwa [← p.take_held] at this
      · rw [hl] at hk
        cases hk
    · intro j c hc hk hm
      rcases hcell hc with hc | ⟨rfl, rfl⟩
      · exact h.kept j c hc hk (p.take_sublist.subset hm)
      · exact hnodup.1 hm

/-- From instruction `i` on, no result is put where one lies that is live after it. -/
def Spares (last : Nat → Option Nat) (cells : List Nat) (i : Nat) : Prop :=
  ∀ n, i ≤ n → ∀ c, cells[n]? = some c → ∀ j < n, Live last (n + 1) j → cells[j]? ≠ some c

/-- An allocation gives every result a cell of its own as long as it is live. -/
theorem allocateFrom_spec {ls : List (Option Nat)} (h : Fits last i cs p) (hi : cs.length = i)
    (hls : ∀ m l, ls[m]? = some l → last (i + m) = l) :
    (allocateFrom i p ls).cells.length = ls.length ∧
      (∀ c ∈ cs ++ (allocateFrom i p ls).cells, c < (allocateFrom i p ls).count) ∧
      Spares last (cs ++ (allocateFrom i p ls).cells) i := by
  induction ls generalizing i cs p with
  | nil =>
    refine ⟨rfl, fun c hc => h.bound c (.inl ?_), fun n hn c hc => ?_⟩
    · simpa [allocateFrom] using hc
    · rw [List.getElem?_eq_none (by simp [allocateFrom]; omega)] at hc
      cases hc
  | cons l ls ih =>
    have hl : last cs.length = l := hi ▸ hls 0 l rfl
    have hf := h.release.hold
    rw [hl] at hf
    obtain ⟨hlen, hbound, hspares⟩ := ih hf (by simp [hi])
      fun m l hm => by rw [← hls (m + 1) l hm]; congr 1; omega
    simp only [allocateFrom]
    rw [List.append_assoc] at hbound hspares
    refine ⟨by simp [hlen], hbound, fun n hn c hc j hj hlive => ?_⟩
    -- the cell of the next result was free, so no live result has it
    rcases Nat.lt_or_eq_of_le hn with hn | rfl
    · exact hspares n hn c hc j hj hlive
    · subst hi
      rw [List.getElem?_append_right (Nat.le_refl _), Nat.sub_self] at hc
      cases hc
      rw [List.getElem?_append_left hj]
      exact h.release.take_fresh hlive

theorem ofCode_spec (code : List Instruction) :
    (ofCode code).cells.length = code.length ∧ (∀ c ∈ (ofCode code).cells, c < (ofCode code).count) ∧
      Spares (fun j => lastReaderFrom j 0 code) (ofCode code).cells 0 := by
  have hfits : Fits (fun j => lastReaderFrom j 0 code) 0 [] .empty :=
    ⟨by simp, by simp, .nil, by simp [Pool.cells, Pool.empty]⟩
  have hlast : ∀ m l, (lastReaders code)[m]? = some l → lastReaderFrom (0 + m) 0 code = l := by
    intro m l hm
    rw [lastReaders_eq, List.getElem?_map, Option.map_eq_some_iff] at hm
    obtain ⟨j, hj, rfl⟩ := hm
    obtain ⟨_, rfl⟩ := List.getElem?_eq_some_iff.1 hj
    simp
  obtain ⟨hlen, hbound, hspares⟩ := allocateFrom_spec hfits rfl hlast
  refine ⟨?_, hbound, hspares⟩
  rw [ofCode, hlen, lastReaders_eq, List.length_map, List.length_range]

end Allocation

end Symbolic
