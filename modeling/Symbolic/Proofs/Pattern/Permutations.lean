import Mathlib.Data.List.Permutation
import Mathlib.Logic.Relation
import Symbolic.Pattern.Exchange
import Symbolic.Proofs.Pattern.Arrange

/-!
Every permutation is listed once: as many are listed as there are (`length_arrange`), and none is
missing. A loop with counters lists the same ones in the same order (`Exchanging.leads_arrange`): what the
recursion does with the first `m` elements, the loop does in the rounds in which it looks at places
below `m`, and after them the counters of these places stand at zero again.
-/

namespace Symbolic.Blocks

variable {m : Nat} {counters : List Nat}

theorem length_rounds {α : Type} {xs : List α}
    (ih : ∀ ys : List α, (arrange m ys).1.length = m.factorial) (c : Nat) :
    (rounds m xs c).1.length = (c + 1) * m.factorial := by
  induction c with
  | zero => rw [Nat.zero_add, Nat.one_mul]; exact ih xs
  | succ c ihc =>
    rw [rounds_succ, List.length_append, ihc, ih, Nat.succ_mul (c + 1)]

theorem length_arrange {α : Type} (m : Nat) (xs : List α) :
    (arrange m xs).1.length = m.factorial := by
  induction m generalizing xs with
  | zero => rfl
  | succ m ih => rw [arrange_succ, length_rounds ih, Nat.factorial_succ]

/-- As many are listed as there are, and none is missing. -/
theorem permutations_perm (k : Nat) : (permutations k).Perm (List.range k).permutations := by
  have hlength : (permutations k).length = (List.range k).permutations.length := by
    rw [permutations, length_arrange, List.length_permutations, List.length_range]
  have hsubset : (List.range k).permutations ⊆ permutations k := fun order h =>
    mem_permutations (List.mem_permutations.1 h)
  have hsubperm := List.subperm_of_subset (List.nodup_permutations _ List.nodup_range) hsubset
  exact (hsubperm.perm_of_length_le (Nat.le_of_eq hlength)).symm

namespace Exchanging

/-- The loop comes from one state to another. -/
def Leads : Exchanging → Exchanging → Prop := Relation.ReflTransGen fun s t => s.next? = some t

theorem next?_exchange {c : Nat} (h : counters[m]? = some c) (hc : c < m) (xs : List Nat)
    (listed : List (List Nat)) : next? ⟨xs, counters, m, listed⟩ =
      some ⟨swap (if m % 2 = 0 then 0 else c) m xs, counters.set m (c + 1), 1,
        listed ++ [swap (if m % 2 = 0 then 0 else c) m xs]⟩ := by
  simp only [next?, h, if_pos hc]

theorem next?_leave (h : counters[m]? = some m) (xs : List Nat) (listed : List (List Nat)) :
    next? ⟨xs, counters, m, listed⟩ = some ⟨xs, counters.set m 0, m + 1, listed⟩ := by
  simp only [next?, h, if_neg (Nat.lt_irrefl m)]

theorem set_eq_self {c : Nat} (h : counters[m]? = some c) : counters.set m c = counters := by
  obtain ⟨hm, rfl⟩ := List.getElem?_eq_some_iff.1 h
  exact List.set_getElem_self hm

/-- No element has been brought to the places below `m`. -/
def Fresh (m : Nat) (counters : List Nat) : Prop := ∀ j, 1 ≤ j → j < m → counters[j]? = some 0

theorem Fresh.set (h : Fresh m counters) (c : Nat) : Fresh m (counters.set m c) := by
  intro j hj hjm
  rw [List.getElem?_set_ne (Nat.ne_of_gt hjm)]
  exact h j hj hjm

theorem Fresh.of_succ (h : Fresh (m + 1) counters) (hm : 1 ≤ m) :
    Fresh m counters ∧ counters[m]? = some 0 :=
  ⟨fun j hj hjm => h j hj (Nat.lt_succ_of_lt hjm), h m hm (Nat.lt_succ_self m)⟩

/-- The loop does what it does at the places below `m` once more for each element that it brings to
place `m`. -/
theorem leads_rounds (ih : ∀ {counters : List Nat}, Fresh m counters → ∀ xs listed,
      Leads ⟨xs, counters, 1, listed ++ [xs]⟩
        ⟨(arrange m xs).2, counters, m, listed ++ (arrange m xs).1⟩)
    (h : Fresh m counters) (hm : counters[m]? = some 0) (xs : List Nat) (listed : List (List Nat))
    {c : Nat} (hc : c ≤ m) : Leads ⟨xs, counters, 1, listed ++ [xs]⟩
      ⟨(rounds m xs c).2, counters.set m c, m, listed ++ (rounds m xs c).1⟩ := by
  induction c with
  | zero =>
    rw [set_eq_self hm]
    exact ih h xs listed
  | succ c ihc =>
    have hlt : m < counters.length := (List.getElem?_eq_some_iff.1 hm).1
    have hget : (counters.set m c)[m]? = some c := List.getElem?_set_self hlt
    have hnext := next?_exchange hget hc (rounds m xs c).2 (listed ++ (rounds m xs c).1)
    rw [List.set_set] at hnext
    have hmore := ih (h.set (c + 1)) (entry m xs (c + 1)) (listed ++ (rounds m xs c).1)
    rw [rounds_succ, ← List.append_assoc]
    exact ((ihc (Nat.le_of_succ_le hc)).tail hnext).trans hmore

/-- At the places below `m` the loop arranges the first `m` elements, and leaves the counters as they
were. -/
theorem leads_arrange (hm : 1 ≤ m) (h : Fresh m counters) (xs : List Nat)
    (listed : List (List Nat)) : Leads ⟨xs, counters, 1, listed ++ [xs]⟩
      ⟨(arrange m xs).2, counters, m, listed ++ (arrange m xs).1⟩ := by
  induction m, hm using Nat.le_induction generalizing counters xs listed with
  | base => exact .refl
  | succ m hm ih =>
    obtain ⟨h, h0⟩ := h.of_succ hm
    have hrounds := leads_rounds ih h h0 xs listed (Nat.le_refl m)
    -- every element has been brought to place `m`, which is left
    have hlt : m < counters.length := (List.getElem?_eq_some_iff.1 h0).1
    have hleave := next?_leave (List.getElem?_set_self hlt) (rounds m xs m).2
      (listed ++ (rounds m xs m).1)
    rw [List.set_set, set_eq_self h0] at hleave
    exact hrounds.tail hleave

/-- The loop comes to an end, behind the last place, with the permutations listed. -/
theorem start_leads (k : Nat) : ∃ s, (start k).Leads s ∧ s.next? = none ∧ k ≤ s.place ∧
    s.listed = permutations k := by
  cases k with
  | zero => exact ⟨start 0, .refl, rfl, Nat.zero_le 1, rfl⟩
  | succ k =>
    have hfresh : Fresh (k + 1) (List.replicate (k + 1) 0) := fun j _ hj => by
      rw [List.getElem?_replicate, if_pos hj]
    have hleads := leads_arrange (Nat.succ_pos k) hfresh (List.range (k + 1)) []
    refine ⟨_, hleads, ?_, Nat.le_refl (k + 1), rfl⟩
    have hend : (List.replicate (k + 1) 0)[k + 1]? = none := by
      rw [List.getElem?_replicate, if_neg (Nat.lt_irrefl _)]
    simp only [next?, hend]

end Exchanging

/-- The loop for the numbers below `k` comes to an end, behind the last place, and then every
permutation of them has been listed, once. -/
theorem permutations_exact (k : Nat) :
    (∃ s, (Exchanging.start k).Leads s ∧ s.next? = none ∧ k ≤ s.place ∧ s.listed = permutations k) ∧
      (∀ order, order ∈ permutations k ↔ order.Perm (List.range k)) ∧
      (permutations k).Nodup ∧ (permutations k).length = k.factorial := by
  refine ⟨Exchanging.start_leads k, fun order => ?_, ?_, length_arrange k _⟩
  · rw [(permutations_perm k).mem_iff, List.mem_permutations]
  · exact (permutations_perm k).nodup_iff.2 (List.nodup_permutations _ List.nodup_range)

end Symbolic.Blocks
