import Symbolic.Proofs.Pattern.Blocks

/-!
All arrangements are found. What `arrange` leaves behind is the list with its first elements moved in
a fixed way (`turn`): for an odd number of them the first and the last are exchanged, for an even
number all of them move along one cycle. So it can be said which element stands at the last place in
each round (`round`), and over all rounds every element stands there once (`exists_round`). The main
statement is `mem_permutations`.
-/

namespace Symbolic.Blocks

/-- The cycle along which an even number `m` of elements moves, by its places: from the first place
to the last but two, down to the second, and on to the last two. -/
def cycle (m j : Nat) : Nat := if j = 0 then 0 else if m ≤ j + 2 then j else m - 2 - j

/-- Where the element at place `i` comes from when the first `m` elements have been arranged. -/
def turn (m i : Nat) : Nat :=
  if m % 2 = 1 then if i = 0 then m - 1 else if i + 1 = m then 0 else i
  else if m ≤ i then i
  else if i + 1 = m then 0
  else cycle m (cycle m i + 1)

/-- The place `i`, after the places `j` and `k` have been exchanged. -/
def exchange (j k i : Nat) : Nat := if i = j then k else if i = k then j else i

/-- Where the element at place `i` comes from after round `c` of arranging `m + 1` elements, for an
odd `m`: the last element has changed places with those before it, one after another. -/
def oddRound (m c i : Nat) : Nat :=
  if i = m then if c = 0 then m else if c = m then 0 else if c = 1 then m - 1 else c - 1
  else if i + 1 = m then
    if c = 0 then 0 else if c = m then m else if c % 2 = 1 then m else 0
  else if i = 0 then
    if c = 0 then m - 1 else if c = m then m - 2 else if c % 2 = 1 then 0 else m
  else if i < c ∧ i < m then if i = 1 then m - 1 else i - 1
  else i

/-- The same for an even `m`: all elements have moved `c` steps along the cycle, in which the last
one comes at the end. -/
def evenRound (m c i : Nat) : Nat :=
  if m < i then i
  else
    let j := cycle m i + c
    let j := if j ≤ m then j else j - (m + 1)
    if j = m then m else if j + 1 = m then 0 else cycle m (j + 1)

/-- Where the element at place `i` comes from after round `c` of arranging `m + 1` elements. -/
def round (m c i : Nat) : Nat := if m % 2 = 1 then oddRound m c i else evenRound m c i

theorem round_zero (m i : Nat) : round m 0 i = turn m i := by
  simp only [round, oddRound, evenRound, turn, cycle]
  grind

theorem oddRound_succ {m c : Nat} (hc : c < m) (hm : m % 2 = 1) (i : Nat) :
    oddRound m (c + 1) i = oddRound m c (exchange c m (turn m i)) := by
  simp only [oddRound, turn, exchange, hm]
  grind

theorem evenRound_succ {m c : Nat} (hc : c < m) (hm : m % 2 = 0) (i : Nat) :
    evenRound m (c + 1) i = evenRound m c (exchange 0 m (turn m i)) := by
  have hodd : ¬m % 2 = 1 := by omega
  rcases Nat.lt_trichotomy i m with hi | rfl | hi
  · by_cases hlast : i + 1 = m
    · have hturn : turn m i = 0 := by grind [turn]
      have hcyc : cycle m i = i := by grind [cycle]
      have hcyc' : cycle m m = m := by grind [cycle]
      simp only [hturn, exchange, evenRound, hcyc]
      grind
    · have hturn : turn m i = cycle m (cycle m i + 1) := by grind [turn]
      have hcyc : cycle m (turn m i) = cycle m i + 1 := by rw [hturn]; grind [cycle]
      have hne : turn m i ≠ 0 ∧ turn m i < m := by rw [hturn]; grind [cycle]
      have hex : exchange 0 m (turn m i) = turn m i := by grind [exchange]
      rw [hex, evenRound, evenRound, hcyc]
      grind
  · have hturn : turn i i = i := by grind [turn]
    have hcyc : cycle i i = i := by grind [cycle]
    have hcyc' : cycle i 0 = 0 := by grind [cycle]
    have hex : exchange 0 i i = 0 := by grind [exchange]
    rw [hturn, hex, evenRound, evenRound, hcyc, hcyc']
    grind
  · grind [turn, exchange, evenRound]

theorem round_succ {m c : Nat} (hc : c < m) (i : Nat) :
    round m (c + 1) i = round m c (exchange (if m % 2 = 0 then 0 else c) m (turn m i)) := by
  by_cases hm : m % 2 = 1
  · rw [round, round, if_pos hm, if_pos hm, if_neg (by omega), oddRound_succ hc hm]
  · rw [round, round, if_neg hm, if_neg hm, if_pos (by omega), evenRound_succ hc (by omega)]

theorem round_self (m i : Nat) : round m m i = turn (m + 1) i := by
  simp only [round, oddRound, evenRound, turn, cycle]
  grind

/-- Over the rounds every element stands at the last place. -/
theorem exists_round {m p : Nat} (hp : p ≤ m) : ∃ c ≤ m, round m c m = p := by
  by_cases hm : m % 2 = 1
  · refine ⟨if p = m then 0 else if p = 0 then m else if p + 1 = m then 1 else p + 1, ?_, ?_⟩
    · grind
    · simp only [round, if_pos hm, oddRound]
      grind
  · refine ⟨if p = m then 0 else if p = 0 then m else cycle m p, ?_, ?_⟩
    · grind [cycle]
    · simp only [round, if_neg hm, evenRound, cycle]
      grind

theorem round_of_lt {m c i : Nat} (h : m < i) : round m c i = i := by
  grind [round, oddRound, evenRound]

variable {α : Type} {xs : List α} {m c : Nat}

theorem getElem?_swap {i j : Nat} (hi : i < xs.length) (hj : j < xs.length) (t : Nat) :
    (swap i j xs)[t]? = xs[exchange i j t]? := by
  rw [swap, List.getElem?_eq_getElem hi, List.getElem?_eq_getElem hj]
  simp only [List.getElem?_set, List.length_set, exchange]
  grind

/-- What the rounds before round `c` have brought, and what they leave behind. -/
def rounds (m : Nat) (xs : List α) (c : Nat) : List (List α) × List α :=
  (List.range c).foldl
    (fun (done, last) c =>
      let (more, last) := arrange m (swap (if m % 2 = 0 then 0 else c) m last)
      (done ++ more, last))
    (arrange m xs)

/-- The list with which round `c` starts. -/
def entry (m : Nat) (xs : List α) : Nat → List α
  | 0 => xs
  | c + 1 => swap (if m % 2 = 0 then 0 else c) m (rounds m xs c).2

theorem arrange_succ (m : Nat) (xs : List α) : arrange (m + 1) xs = rounds m xs m := rfl

theorem rounds_succ (m : Nat) (xs : List α) (c : Nat) :
    rounds m xs (c + 1) = ((rounds m xs c).1 ++ (arrange m (entry m xs (c + 1))).1,
      (arrange m (entry m xs (c + 1))).2) := by
  rw [rounds, List.range_succ, List.foldl_concat]
  rfl

theorem rounds_perm (m : Nat) (xs : List α) (c : Nat) : (rounds m xs c).2.Perm xs := by
  induction c with
  | zero => exact (arrange_perm m xs).2
  | succ c ih =>
    rw [rounds_succ]
    exact (arrange_perm m _).2.trans ((swap_perm _ _ _).trans ih)

theorem entry_perm (m : Nat) (xs : List α) (c : Nat) : (entry m xs c).Perm xs := by
  cases c with
  | zero => exact .refl _
  | succ c => exact (swap_perm _ _ _).trans (rounds_perm m xs c)

/-- Where the elements are after a round, if arranging moves them in its way. -/
theorem getElem?_rounds (ih : ∀ ys : List α, m ≤ ys.length → ∀ i, (arrange m ys).2[i]? = ys[turn m i]?)
    (hm : m < xs.length) (hc : c ≤ m) (i : Nat) : (rounds m xs c).2[i]? = xs[round m c i]? := by
  induction c generalizing i with
  | zero =>
    rw [round_zero]
    exact ih xs (Nat.le_of_lt hm) i
  | succ c ihc =>
    have hl := (rounds_perm m xs c).length_eq
    rw [rounds_succ, round_succ hc, ih _ (by rw [(entry_perm m xs _).length_eq]; omega), entry,
      getElem?_swap (by split <;> omega) (by omega), ihc (by omega)]

theorem getElem?_arrange (hm : m ≤ xs.length) (i : Nat) :
    (arrange m xs).2[i]? = xs[turn m i]? := by
  induction m generalizing xs i with
  | zero => rw [arrange, turn, if_neg (by decide), if_pos (Nat.zero_le i)]
  | succ m ih =>
    rw [arrange_succ, getElem?_rounds (fun _ hm => ih hm) hm (Nat.le_refl m), round_self]

/-- The last place at the start of a round, and the places after it. -/
theorem getElem?_entry (hm : m < xs.length) (hc : c ≤ m) {i : Nat} (hi : m ≤ i) :
    (entry m xs c)[i]? = xs[round m c i]? := by
  have hturn : turn m i = i := by grind [turn]
  cases c with
  | zero => rw [round_zero, hturn, entry]
  | succ c =>
    have hl := (rounds_perm m xs c).length_eq
    rw [entry, getElem?_swap (by split <;> omega) (by omega),
      getElem?_rounds (fun _ => getElem?_arrange) hm (by omega), round_succ hc, hturn]

theorem rounds_subset {d : Nat} (h : c ≤ d) : (rounds m xs c).1 ⊆ (rounds m xs d).1 := by
  induction h with
  | refl => exact List.Subset.refl _
  | step _ ih =>
    rw [rounds_succ]
    exact List.subset_append_of_subset_left _ ih

theorem arrange_entry_subset (hc : c ≤ m) :
    (arrange m (entry m xs c)).1 ⊆ (arrange (m + 1) xs).1 := by
  refine List.Subset.trans ?_ (rounds_subset hc)
  cases c with
  | zero => exact List.Subset.refl _
  | succ c =>
    rw [rounds_succ]
    exact List.subset_append_right _ _

/-- Every rearrangement of the first elements is found. -/
theorem mem_arrange (hm : m ≤ xs.length) {zs : List α} (h : zs.Perm (xs.take m)) :
    zs ++ xs.drop m ∈ (arrange m xs).1 := by
  induction m generalizing xs zs with
  | zero =>
    rw [List.take_zero] at h
    rw [h.eq_nil]
    exact List.mem_singleton.2 rfl
  | succ m ih =>
    have hne : zs ≠ [] := by
      rintro rfl
      have := h.length_eq
      rw [List.length_nil, List.length_take] at this
      omega
    obtain ⟨ws, x, rfl⟩ : ∃ ws x, zs = ws ++ [x] :=
      ⟨zs.dropLast, zs.getLast hne, (List.dropLast_concat_getLast hne).symm⟩
    -- in some round the last of the elements stands at its place from the start
    have hx : x ∈ xs.take (m + 1) := h.mem_iff.1 (by simp)
    obtain ⟨p, hp, hxp⟩ := List.mem_iff_getElem.1 hx
    rw [List.length_take] at hp
    rw [List.getElem_take] at hxp
    obtain ⟨c, hc, hcp⟩ := exists_round (m := m) (p := p) (by omega)
    have hl := (entry_perm m xs c).length_eq
    have hget : (entry m xs c)[m]? = some x := by
      rw [getElem?_entry hm hc (Nat.le_refl m), hcp, List.getElem?_eq_getElem (by omega), hxp]
    have hdrop : (entry m xs c).drop (m + 1) = xs.drop (m + 1) := by
      refine List.ext_getElem? fun i => ?_
      rw [List.getElem?_drop, List.getElem?_drop, getElem?_entry hm hc (by omega),
        round_of_lt (by omega)]
    have htake : (entry m xs c).take (m + 1) = (entry m xs c).take m ++ [x] := by
      rw [List.take_add_one, hget]
      rfl
    have hperm : ((entry m xs c).take (m + 1)).Perm (xs.take (m + 1)) := by
      refine (List.perm_append_right_iff ((entry m xs c).drop (m + 1))).1 ?_
      rw [List.take_append_drop, hdrop, List.take_append_drop]
      exact entry_perm m xs c
    rw [htake] at hperm
    have hws : ws.Perm ((entry m xs c).take m) :=
      (List.perm_append_right_iff [x]).1 (h.trans hperm.symm)
    have hmem := arrange_entry_subset hc (ih (by omega) hws)
    rw [List.drop_eq_getElem?_toList_append, hget, hdrop] at hmem
    rwa [List.append_assoc]

/-- All arrangements of the numbers are found. -/
theorem mem_permutations {k : Nat} {order : List Nat} (h : order.Perm (List.range k)) :
    order ∈ permutations k := by
  have hk : k ≤ (List.range k).length := by simp
  have horder : order.Perm ((List.range k).take k) := by rwa [List.take_of_length_le (by simp)]
  have hmem := mem_arrange hk horder
  rwa [List.drop_of_length_le (by simp), List.append_nil] at hmem

end Symbolic.Blocks
