import Symbolic.Proofs.Search.Invariant

/-!
A walk finds exactly what can be reached. `Chain step a n b` says that `n` steps lead from `a` to
`b`. What a walk visits is reached by a chain that is no longer than allowed, and each expression is
visited once (`Sound`). At the end of a walk that is not broken off, an expression with steps left
has been gone through: where a step leads to has at most one step less left (`Closed`). In a wide
walk the steps left fall along the way (`Leveled`).
-/

namespace Symbolic

open Symbolic.Expr

/-- The second expression is reached from the first by the given number of steps. -/
inductive Chain (step : Expr → List Expr) (a : Expr) : Nat → Expr → Prop where
  | start : Chain step a 0 a
  | snoc {n : Nat} {b c : Expr} : Chain step a n b → c ∈ step b → Chain step a (n + 1) c

/-- Steps keep the property, and they lead from equal expressions to equal ones or back to them. -/
structure StepsAlike (P : Expr → Prop) (step : Expr → List Expr) : Prop where
  keeps : ∀ {e d}, P e → d ∈ step e → P d
  alike : ∀ {e e' d}, P e → P e' → Alike e e' → d ∈ step e →
    Alike d e' ∨ ∃ d' ∈ step e', Alike d d'

namespace Walk

variable {step : Expr → List Expr} {test : Expr → Bool} {P : Expr → Prop} {w v : Walk}
  {a e x : Expr} {bound m n : Nat}

/-- With `n` steps left of all that are allowed the expression has been reached. -/
def Reached (step : Expr → List Expr) (a : Expr) (bound : Nat) (n : Nat) (e : Expr) : Prop :=
  n ≤ bound ∧ Chain step a (bound - n) e

theorem reached_start : Reached step a bound bound a :=
  ⟨Nat.le_refl bound, by rw [Nat.sub_self]; exact .start⟩

theorem Reached.next {d : Expr} (h : Reached step a bound (n + 1) e) (hd : d ∈ step e) :
    Reached step a bound n d := by
  refine ⟨Nat.le_of_succ_le h.1, ?_⟩
  rw [show bound - n = bound - (n + 1) + 1 by have := h.1; omega]
  exact .snoc h.2 hd

/-! What is visited can be reached, and is visited once. -/

/-- The start is visited first and no two equal expressions are; what is visited has been reached,
and steps are left from it and what it equals, and from nothing else. If the test is passed, the
walk has found something. -/
structure Sound (step : Expr → List Expr) (test : Expr → Bool) (a : Expr) (bound : Nat)
    (w : Walk) : Prop where
  first : ∃ vs, w.visited = vs ++ [a]
  apart : w.visited.Pairwise fun x y => ¬Alike x y
  known : ∀ x, (∃ m, w.left.get? x = some m) ↔ ∃ y ∈ w.visited, Alike x y
  reached : ∀ x ∈ w.visited, ∃ n, Reached step a bound n x
  found : w.found = true ↔ ∃ x ∈ w.visited, test x = true

theorem sound_start : Sound step test a bound (start test bound a) where
  first := ⟨[], rfl⟩
  apart := List.pairwise_singleton _ _
  known x := by
    rw [start, Table.get?_insert, Table.get?_empty]
    by_cases h : x.alike a = true
    · simp [h, Alike]
    · simp [h, Alike]
  reached := List.forall_mem_singleton.2 ⟨bound, reached_start⟩
  found := by simp [start]

theorem Sound.moves (h : Sound step test a bound w) (hm : Moves test (Reached step a bound) w v) :
    Sound step test a bound v := by
  induction hm with
  | refl => exact h
  | @visit v n e _ hf hn hok ih =>
    have hnew : ∀ y ∈ v.visited, ¬Alike e y := fun y hy hey => by
      obtain ⟨m, hm⟩ := (ih.known e).2 ⟨y, hy, hey⟩
      rw [hn] at hm
      cases hm
    refine ⟨?_, List.pairwise_cons.2 ⟨hnew, ih.apart⟩, fun x => ?_,
      List.forall_mem_cons.2 ⟨⟨n, hok⟩, ih.reached⟩, ?_⟩
    · obtain ⟨vs, hvs⟩ := ih.first
      exact ⟨e :: vs, by rw [visit, hvs]; rfl⟩
    · rw [visit, Table.get?_insert]
      by_cases hx : x.alike e = true
      · simp [hx, Alike]
      · have hxe : ¬Alike x e := hx
        simp [hx, hxe, ih.known x]
    · have hnone : ¬∃ x ∈ v.visited, test x = true := by rw [← ih.found, hf]; exact Bool.false_ne_true
      rw [visit]
      constructor
      · exact fun ht => ⟨e, List.mem_cons_self, ht⟩
      · rintro ⟨x, hx, ht⟩
        rcases List.mem_cons.1 hx with rfl | hx
        · exact ht
        · exact absurd ⟨x, hx, ht⟩ hnone
  | @raise v m n e _ _ hm _ _ ih =>
    refine ⟨ih.first, ih.apart, fun x => ?_, ih.reached, ih.found⟩
    rw [← ih.known, Table.get?_insert]
    by_cases hx : x.alike e = true
    · have hxe : v.left.get? x = some m := (Table.get?_alike _ hx).trans hm
      simp [hx, hxe]
    · simp [hx]

theorem Sound.chain (h : Sound step test a bound w) :
    ∀ x ∈ w.visited, ∃ n ≤ bound, Chain step a n x := by
  intro x hx
  obtain ⟨n, -, hn⟩ := h.reached x hx
  exact ⟨bound - n, Nat.sub_le bound n, hn⟩

/-! What can be reached is visited. -/

/-- Where one step leads to, at most one step less is left than `m`. -/
def Expanded (step : Expr → List Expr) (w : Walk) (x : Expr) (m : Nat) : Prop :=
  ∀ k, m = k + 1 → ∀ z ∈ step x, ∃ l, w.left.get? z = some l ∧ k ≤ l

theorem Expanded.moves {ok : Nat → Expr → Prop} (h : Expanded step w x m)
    (hm : Moves test ok w v) : Expanded step v x m := by
  intro k hk z hz
  obtain ⟨l, hl, hkl⟩ := h k hk z hz
  obtain ⟨l', hl', hll⟩ := hm.le_left hl
  exact ⟨l', hl', hkl.trans hll⟩

/-- What is equal to an expression that has been gone through need not be gone through. -/
theorem Expanded.alike (hs : StepsAlike P step) {y : Expr} (h : Expanded step w y m) (hy : P y)
    (hx : P x) (hxy : Alike x y) (hm : w.left.get? y = some m) : Expanded step w x m := by
  rintro k rfl z hz
  rcases hs.alike hx hy hxy hz with hzy | ⟨z', hz', hzz⟩
  · exact ⟨k + 1, (Table.get?_alike _ hzy).trans hm, Nat.le_succ k⟩
  · obtain ⟨l, hl, hkl⟩ := h k rfl z' hz'
    exact ⟨l, (Table.get?_alike _ hzz).trans hl, hkl⟩

/-- All that has steps left has been gone through. -/
def Finished (P : Expr → Prop) (step : Expr → List Expr) (w : Walk) : Prop :=
  ∀ x m, P x → w.left.get? x = some m → Expanded step w x m

/-- In a finished walk a chain that is not too long leads to what steps are left from. -/
theorem Finished.chain (h : Finished P step w) (hs : StepsAlike P step) (ha : P a)
    (hstart : w.left.get? a = some bound) {b : Expr} (hc : Chain step a n b) (hn : n ≤ bound) :
    P b ∧ ∃ l, w.left.get? b = some l ∧ bound - n ≤ l := by
  induction hc with
  | start => exact ⟨ha, bound, hstart, Nat.sub_le bound 0⟩
  | @snoc n b c _ hcb ih =>
    obtain ⟨hb, l, hl, hnl⟩ := ih (Nat.le_of_succ_le hn)
    obtain ⟨l', hl', hll⟩ := h b l hb hl (l - 1) (by omega) c hcb
    exact ⟨hs.keeps hb hcb, l', hl', by omega⟩

/-! Level by level. -/

/-- What comes of going through a list after the walk `w`, where `fresh` had been put aside: each
element is known, and what is known now was known before, or it has been put aside. -/
structure Met (n : Nat) (es : List Expr) (w : Walk) (fresh : List Expr) (r : Walk × List Expr) :
    Prop where
  known : ∀ z ∈ es, ∃ l, r.1.left.get? z = some l
  keeps : ∀ y ∈ fresh, y ∈ r.2
  left : ∀ x m, r.1.left.get? x = some m → w.left.get? x = some m ∨ m = n ∧ ∃ y ∈ r.2, Alike x y

/-- From one expression more `n` steps are left first, and it is put before the others. -/
theorem Met.cons {es fresh : List Expr} {r : Walk × List Expr} (h : Met n es v (e :: fresh) r)
    (hm : Moves test (fun _ _ => True) v r.1)
    (hv : ∀ x, v.left.get? x = if x.alike e then some n else w.left.get? x) :
    Met n (e :: es) w fresh r := by
  have hve : v.left.get? e = some n := by rw [hv, if_pos (alike_refl e)]
  obtain ⟨l, hl, -⟩ := hm.le_left hve
  refine ⟨List.forall_mem_cons.2 ⟨⟨l, hl⟩, h.known⟩,
    fun y hy => h.keeps y (List.mem_cons_of_mem _ hy), fun x m hx => ?_⟩
  rcases h.left x m hx with hx | hx
  · rw [hv] at hx
    split at hx
    · next hxe => exact .inr ⟨(Option.some.inj hx).symm, e, h.keeps e List.mem_cons_self, hxe⟩
    · exact .inl hx
  · exact .inr hx

theorem met_visitNew {es : List Expr} {w : Walk} {fresh : List Expr}
    (hf : (visitNew test n es w fresh).1.found = false) :
    Met n es w fresh (visitNew test n es w fresh) := by
  induction es generalizing w fresh with
  | nil => exact ⟨List.forall_mem_nil _, fun _ => id, fun _ _ => .inl⟩
  | cons e es ih =>
    have hmoves (w : Walk) (fresh : List Expr) :
        Moves test (fun _ _ => True) w (visitNew test n es w fresh).1 :=
      (moves_visitNew (fun _ _ => trivial) w fresh).1
    rw [visitNew] at hf ⊢
    split at hf
    · next hw =>
      rw [hf] at hw
      cases hw
    next hw =>
    rw [if_neg hw]
    split at hf
    · next hc =>
      rw [if_pos hc]
      have h := ih hf
      obtain ⟨l, hl⟩ := Option.isSome_iff_exists.1 hc
      obtain ⟨l', hl', -⟩ := (hmoves w fresh).le_left hl
      exact { h with known := List.forall_mem_cons.2 ⟨⟨l', hl'⟩, h.known⟩ }
    · next hc =>
      rw [if_neg hc]
      exact (ih hf).cons (hmoves _ _) fun x => by rw [visit, Table.get?_insert]

/-- From what is known at least `n` steps are left; it has been gone through or it stands in the
level that comes next, from which `n` steps are left. -/
def Frontier (P : Expr → Prop) (step : Expr → List Expr) (n : Nat) (level : List Expr)
    (w : Walk) : Prop :=
  ∀ x m, P x → w.left.get? x = some m →
    n ≤ m ∧ (Expanded step w x m ∨ m = n ∧ ∃ y ∈ level, Alike x y)

/-- Once the level has been gone through, what is fresh stands in the next one. -/
theorem Frontier.next {ok : Nat → Expr → Prop} {level fresh : List Expr}
    (h : Frontier P step (n + 1) level w) (hs : StepsAlike P step) (hl : ∀ e ∈ level, P e)
    (hm : Moves test ok w v) (hmet : Met n (level.flatMap step) w [] (v, fresh)) :
    Frontier P step n fresh.reverse v := by
  intro x m hx hxm
  rcases hmet.left x m hxm with hw | ⟨rfl, y, hy, hxy⟩
  · obtain ⟨hnm, hexp⟩ := h x m hx hw
    refine ⟨Nat.le_of_succ_le hnm, .inl ?_⟩
    rcases hexp with hexp | ⟨rfl, y, hy, hxy⟩
    · exact hexp.moves hm
    · have hyv : v.left.get? y = some (n + 1) := (Table.get?_alike _ hxy).symm.trans hxm
      refine Expanded.alike hs ?_ (hl y hy) hx hxy hyv
      rintro k hk z hz
      obtain ⟨l, hzl⟩ := hmet.known z (List.mem_flatMap.2 ⟨y, hy, hz⟩)
      refine ⟨l, hzl, ?_⟩
      rcases hmet.left z l hzl with hzw | ⟨rfl, -⟩
      · have := (h z l (hs.keeps (hl y hy) hz) hzw).1
        omega
      · omega
  · exact ⟨Nat.le_refl _, .inr ⟨rfl, y, List.mem_reverse.2 hy, hxy⟩⟩

/-- A wide walk that is not broken off goes through all that has steps left. -/
theorem finished_wide (hs : StepsAlike P step) {level : List Expr} (hl : ∀ e ∈ level, P e)
    (h : Frontier P step n level w) (hf : (wide step test n level w).found = false) :
    Finished P step (wide step test n level w) := by
  induction n generalizing level w with
  | zero =>
    intro x m hx hm
    rcases (h x m hx hm).2 with hexp | ⟨rfl, -⟩
    · exact hexp
    · exact fun k hk => by cases hk
  | succ n ih =>
    have hstep : ∀ d ∈ level.flatMap step, P d := by
      intro d hd
      obtain ⟨e, he, hd⟩ := List.mem_flatMap.1 hd
      exact hs.keeps (hl e he) hd
    obtain ⟨hmoves, hfresh⟩ := @moves_visitNew test (fun _ => P) n _ hstep w []
    have hmet := @met_visitNew test n (level.flatMap step) w []
    rw [wide, nextLevel_eq] at hf ⊢
    generalize visitNew test n (level.flatMap step) w [] = p at hmoves hfresh hmet hf ⊢
    obtain ⟨v, fresh⟩ := p
    simp only at hmoves hfresh hmet hf ⊢
    have hfv : v.found = false := by
      split at hf
      · exact hf
      · next hgo =>
        rw [Bool.or_eq_true, not_or] at hgo
        exact Bool.not_eq_true _ ▸ hgo.1
    have hnext : Frontier P step n fresh.reverse v := h.next hs hl hmoves (hmet hfv)
    split at hf
    · next hstop =>
      rw [if_pos hstop]
      intro x m hx hm
      rcases (hnext x m hx hm).2 with hexp | ⟨-, y, hy, -⟩
      · exact hexp
      · rw [hfv, Bool.false_or, List.isEmpty_iff] at hstop
        rw [hstop] at hy
        cases hy
    · next hgo =>
      rw [if_neg hgo]
      refine ih (fun e he => ?_) hnext hf
      exact (hfresh e (List.mem_reverse.1 he)).resolve_left List.not_mem_nil

/-! Chain by chain. -/

/-- What is put aside is to be gone through with `n` steps left, so of each element that many are left
at least. -/
structure Noted (n : Nat) (es : List Expr) (w : Walk) (next : List Expr) (r : Walk × List Expr) : Prop
    extends Met n es w next r where
  steps : ∀ z ∈ es, ∃ l, r.1.left.get? z = some l ∧ n ≤ l
  pending : ∀ y ∈ r.2, y ∈ next ∨ r.1.left.get? y = some n

theorem Noted.cons {es next : List Expr} {r : Walk × List Expr} (h : Noted n es v (e :: next) r)
    (hm : Moves test (fun _ _ => True) v r.1)
    (hv : ∀ x, v.left.get? x = if x.alike e then some n else w.left.get? x) :
    Noted n (e :: es) w next r := by
  have hve : v.left.get? e = some n := by rw [hv, if_pos (alike_refl e)]
  obtain ⟨l, hl, hnl⟩ := hm.le_left hve
  refine ⟨h.toMet.cons hm hv, List.forall_mem_cons.2 ⟨⟨l, hl, hnl⟩, h.steps⟩, fun y hy => ?_⟩
  rcases h.pending y hy with hy | hy
  · rcases List.mem_cons.1 hy with rfl | hy
    · refine .inr ?_
      rcases h.left y l hl with hy | ⟨rfl, -⟩
      · rw [hl, ← hy, hve]
      · exact hl
    · exact .inl hy
  · exact .inr hy

theorem noted_note {es : List Expr} {w : Walk} {next : List Expr}
    (hf : (note test n es w next).1.found = false) : Noted n es w next (note test n es w next) := by
  induction es generalizing w next with
  | nil =>
    have hmet : Met n [] w next (w, next) := ⟨List.forall_mem_nil _, fun _ => id, fun _ _ => .inl⟩
    exact ⟨hmet, List.forall_mem_nil _, fun _ => .inl⟩
  | cons e es ih =>
    have hmoves (w : Walk) (next : List Expr) :
        Moves test (fun _ _ => True) w (note test n es w next).1 :=
      (moves_note (fun _ _ => trivial) w next).1
    rw [note] at hf ⊢
    split at hf
    · next hw =>
      rw [hf] at hw
      cases hw
    next hw =>
    rw [if_neg hw]
    cases he : w.left.get? e with
    | none =>
      rw [he] at hf
      exact (ih hf).cons (hmoves _ _) fun x => by rw [visit, Table.get?_insert]
    | some m =>
      rw [he] at hf
      simp only at hf ⊢
      split at hf
      · next hnm =>
        rw [if_pos hnm]
        have h := ih hf
        obtain ⟨l, hl, hml⟩ := (hmoves w next).le_left he
        exact { h with
          known := List.forall_mem_cons.2 ⟨⟨l, hl⟩, h.known⟩
          steps := List.forall_mem_cons.2 ⟨⟨l, hl, hnm.trans hml⟩, h.steps⟩ }
      · next hnm =>
        rw [if_neg hnm]
        exact (ih hf).cons (hmoves _ _) fun x => Table.get?_insert _ _ _ _

/-- Between the walks `w` and `v` the expression `e` has been gone through, and all from which more
steps are left than before. -/
def Gone (P : Expr → Prop) (step : Expr → List Expr) (e : Expr) (w v : Walk) : Prop :=
  ∀ x m, P x → v.left.get? x = some m →
    w.left.get? x = some m ∧ ¬Alike x e ∨ Expanded step v x m

/-- One after the other is gone through, and that leaves the others as they are. So in the end all that
has steps left has been gone through, but for what `B` says from the beginning. -/
theorem expanded_foldl {B : Expr → Nat → Prop}
    (ih : ∀ {y v}, P y → v.left.get? y = some n → (deep step test n y v).found = false →
      Gone P step y v (deep step test n y v))
    {next : List Expr} {v : Walk}
    (hf : (next.foldl (fun w d => deep step test n d w) v).found = false)
    (hnext : ∀ y ∈ next, P y ∧ v.left.get? y = some n)
    (hpending : ∀ x m, P x → v.left.get? x = some m →
      B x m ∨ Expanded step v x m ∨ m = n ∧ ∃ y ∈ next, Alike x y) :
    ∀ x m, P x → (next.foldl (fun w d => deep step test n d w) v).left.get? x = some m →
      B x m ∨ Expanded step (next.foldl (fun w d => deep step test n d w) v) x m := by
  have hdeep (d : Expr) (v : Walk) : Moves test (fun m _ => m < n ∧ True) v (deep step test n d v) :=
    moves_deep (fun _ _ => trivial) trivial v
  induction next generalizing v with
  | nil =>
    intro x m hx hm
    rcases hpending x m hx hm with h | h | ⟨-, y, hy, -⟩
    · exact .inl h
    · exact .inr h
    · cases hy
  | cons y next ihn =>
    obtain ⟨⟨hy, hyn⟩, hnext⟩ := List.forall_mem_cons.1 hnext
    rw [List.foldl_cons] at hf ⊢
    have hgone := ih hy hyn ((moves_foldl (fun d _ v => hdeep d v) _).not_found hf)
    refine ihn hf (fun z hz => ⟨(hnext z hz).1, ?_⟩) fun x m hx hm => ?_
    · exact (hdeep y v).left_eq (fun h => h.1) (hnext z hz).2 (Nat.le_refl n)
    · rcases hgone x m hx hm with ⟨hxv, hxy⟩ | h
      · rcases hpending x m hx hxv with h | h | ⟨hmn, z, hz, hxz⟩
        · exact .inl h
        · exact .inr (.inl (h.moves (hdeep y v)))
        · rcases List.mem_cons.1 hz with rfl | hz
          · exact absurd hxz hxy
          · exact .inr (.inr ⟨hmn, z, hz, hxz⟩)
      · exact .inr (.inl h)

/-- A deep walk that is not broken off goes through what it starts from, and through all from which
more steps are left than before. -/
theorem expanded_deep (hs : StepsAlike P step) (he : P e) (hn : w.left.get? e = some n)
    (hf : (deep step test n e w).found = false) : Gone P step e w (deep step test n e w) := by
  induction n generalizing e w with
  | zero =>
    intro x m _ hm
    by_cases hxe : Alike x e
    · have hm0 : w.left.get? e = some m := (Table.get?_alike _ hxe).symm.trans hm
      rw [hn, Option.some.injEq] at hm0
      subst hm0
      exact .inr fun k hk => by cases hk
    · exact .inl ⟨hm, hxe⟩
  | succ n ih =>
    have hstep : ∀ d ∈ step e, n < n + 1 := fun _ _ => Nat.lt_succ_self n
    have hnoted := @noted_note test n (step e) w []
    have hmoves := (@moves_note test (fun m _ => m < n + 1) n _ hstep w []).1
    have hP := (@moves_note test (fun _ => P) n _ (fun d hd => hs.keeps he hd) w []).2
    rw [deep] at hf ⊢
    split at hf
    · next hw =>
      rw [hf] at hw
      cases hw
    next hw =>
    rw [if_neg hw]
    generalize note test n (step e) w [] = p at hnoted hmoves hP hf ⊢
    obtain ⟨v, next⟩ := p
    simp only at hnoted hmoves hP hf ⊢
    have hfold : Moves test (fun m _ => m < n ∧ True) v
        (next.foldl (fun w d => deep step test n d w) v) :=
      moves_foldl (fun d _ v => moves_deep (fun _ _ => trivial) trivial v) v
    have hnoted := hnoted (hfold.not_found hf)
    have hv : v.left.get? e = some (n + 1) := hmoves.left_eq id hn (Nat.le_refl _)
    have hexp : Expanded step v e (n + 1) := fun k hk z hz => by
      cases hk
      exact hnoted.steps z hz
    have hnext : ∀ y ∈ next, P y ∧ v.left.get? y = some n := fun y hy =>
      ⟨(hP y hy).resolve_left List.not_mem_nil, (hnoted.pending y hy).resolve_left List.not_mem_nil⟩
    refine expanded_foldl (fun hy hyn hf => ih hy hyn hf) hf hnext fun x m hx hm => ?_
    -- what is not left as it was has been gone through, or it is equal to something noted
    by_cases hxe : Alike x e
    · have hme : v.left.get? e = some m := (Table.get?_alike _ hxe).symm.trans hm
      rw [hv, Option.some.injEq] at hme
      exact .inr (.inl (hme ▸ hexp.alike hs he hx hxe hv))
    · exact (hnoted.left x m hm).imp (fun h => ⟨h, hxe⟩) .inr

/-! The steps left fall along a wide walk. -/

/-- From the expressions visited, the last one first, these numbers of steps are left, none fewer
than `n`. -/
def Leveled (step : Expr → List Expr) (a : Expr) (bound n : Nat) (w : Walk) : Prop :=
  ∃ ls : List Nat, ls.Pairwise (· ≤ ·) ∧ (∀ l ∈ ls, n ≤ l) ∧
    List.Forall₂ (fun x l => w.left.get? x = some l ∧ Reached step a bound l x) w.visited ls

theorem Leveled.visitNew {es : List Expr} {fresh : List Expr} (h : Leveled step a bound n w)
    (hes : ∀ e ∈ es, Reached step a bound n e) :
    Leveled step a bound n (visitNew test n es w fresh).1 := by
  induction es generalizing w fresh with
  | nil => exact h
  | cons e es ih =>
    obtain ⟨he, hes⟩ := List.forall_mem_cons.1 hes
    rw [Walk.visitNew]
    split
    · exact h
    split
    · exact ih h hes
    · next hc =>
      have hc : w.left.get? e = none := Option.not_isSome_iff_eq_none.1 hc
      obtain ⟨ls, hls, hn, hvis⟩ := h
      refine ih ⟨n :: ls, List.pairwise_cons.2 ⟨hn, hls⟩,
        List.forall_mem_cons.2 ⟨Nat.le_refl n, hn⟩, .cons ⟨?_, he⟩ (hvis.imp fun x l hx => ?_)⟩ hes
      · rw [visit, Table.get?_insert, if_pos (alike_refl e)]
      · refine ⟨?_, hx.2⟩
        rw [visit, Table.get?_insert, if_neg, hx.1]
        intro hxe
        rw [Table.get?_alike _ hxe, hc] at hx
        cases hx.1

theorem Leveled.wide {level : List Expr} (h : Leveled step a bound n w)
    (hl : ∀ e ∈ level, Reached step a bound n e) :
    Leveled step a bound 0 (wide step test n level w) := by
  induction n generalizing level w with
  | zero => exact h
  | succ n ih =>
    have hstep : ∀ d ∈ level.flatMap step, Reached step a bound n d := by
      intro d hd
      obtain ⟨e, he, hd⟩ := List.mem_flatMap.1 hd
      exact (hl e he).next hd
    have h : Leveled step a bound n w := by
      obtain ⟨ls, hls, hn, hvis⟩ := h
      exact ⟨ls, hls, fun l hl => Nat.le_of_succ_le (hn l hl), hvis⟩
    have hlevel : Leveled step a bound n (Walk.visitNew test n (level.flatMap step) w []).1 :=
      h.visitNew hstep
    have hfresh := (@moves_visitNew test (Reached step a bound) n _ hstep w []).2
    rw [Walk.wide, nextLevel_eq]
    generalize Walk.visitNew test n (level.flatMap step) w [] = p at hlevel hfresh ⊢
    obtain ⟨v, fresh⟩ := p
    simp only at hlevel hfresh ⊢
    split
    · obtain ⟨ls, hls, -, hvis⟩ := hlevel
      exact ⟨ls, hls, fun l _ => Nat.zero_le l, hvis⟩
    · exact ih hlevel fun e he =>
        (hfresh e (List.mem_reverse.1 he)).resolve_left List.not_mem_nil

end Walk

end Symbolic
