import Symbolic.Proofs.Search.Regular

/-!
A search finds exactly what its rules lead to. Where the rules are regular, its members are, up to
equality, the expressions that chains of no more steps than allowed lead to, each of them once
(`explores_reachable`); so both orders find the same.

A rule whose replacement is not steady may lead from equal expressions to different ones. Only one of
these is gone on from, and what the other leads to is missed (`not_proves_reachable`).
-/

namespace Symbolic

open Symbolic.Expr

namespace Search

variable {s : Search} {a b : Expr} {rules : List Rule}

/-! What the walk of a search is like. -/

section Walk

variable {d : Nat} {test : Expr → Bool}

theorem sound_walk (hd : s.depth = some d) (rules : List Rule) (test : Expr → Bool) (a : Expr) :
    (s.walk rules test a).Sound (step rules) test a d := by
  have hmoves : Walk.Moves test (Walk.Reached (step rules) a d) (Walk.start test d a)
      (s.walk rules test a) := by
    have := @moves_walk s rules test (Walk.Reached (step rules) a d) (fun h hd => h.next hd) a
    rw [hd] at this
    exact this Walk.reached_start
  exact Walk.sound_start.moves hmoves

theorem finished_walk (hd : s.depth = some d) (hs : StepsAlike Stable (step rules))
    (ha : Stable a) (hf : (s.walk rules test a).found = false) :
    (s.walk rules test a).left.get? a = some d ∧
      (s.walk rules test a).Finished Stable (step rules) := by
  have hself : (Walk.start test d a).left.get? a = some d := by
    rw [Walk.start, Table.get?_insert, if_pos (alike_refl a)]
  have honly : ∀ x m, (Walk.start test d a).left.get? x = some m → m = d ∧ Alike x a := by
    intro x m hm
    rw [Walk.start, Table.get?_insert, Table.get?_empty] at hm
    split at hm
    · next hx => exact ⟨(Option.some.inj hm).symm, hx⟩
    · cases hm
  rw [walk, hd] at hf ⊢
  simp only [Option.getD_some] at hf ⊢
  split at hf
  · next hw =>
    rw [hf] at hw
    cases hw
  next hw =>
  rw [if_neg hw]
  cases hstrategy : s.strategy with
  | wide =>
    simp only [hstrategy] at hf ⊢
    have hmoves : Walk.Moves test (fun m _ => m < d ∧ True) _
        (Walk.wide (step rules) test d [a] (Walk.start test d a)) :=
      Walk.moves_wide (fun _ _ => trivial) (fun _ _ => trivial) _
    refine ⟨hmoves.left_eq (fun h => h.1) hself (Nat.le_refl d), ?_⟩
    refine Walk.finished_wide hs (List.forall_mem_singleton.2 ha) (fun x m _ hm => ?_) hf
    obtain ⟨rfl, hx⟩ := honly x m hm
    exact ⟨Nat.le_refl m, .inr ⟨rfl, a, List.mem_singleton.2 rfl, hx⟩⟩
  | deep =>
    simp only [hstrategy] at hf ⊢
    have hmoves : Walk.Moves test (fun m _ => m < d ∧ True) _
        (Walk.deep (step rules) test d a (Walk.start test d a)) :=
      Walk.moves_deep (fun _ _ => trivial) trivial _
    refine ⟨hmoves.left_eq (fun h => h.1) hself (Nat.le_refl d), fun x m hx hm => ?_⟩
    rcases Walk.expanded_deep hs ha hself hf x m hx hm with ⟨hstart, hxa⟩ | h
    · exact absurd (honly x m hstart).2 hxa
    · exact h

/-- A walk that is not broken off visits all that can be reached. -/
theorem exists_visited (hd : s.depth = some d) (hs : StepsAlike Stable (step rules))
    (ha : Stable a) (hf : (s.walk rules test a).found = false) {n : Nat} {x : Expr}
    (hx : Chain (step rules) a n x) (hn : n ≤ d) :
    Stable x ∧ ∃ m, (s.walk rules test a).left.get? x = some m ∧ d - n ≤ m ∧
      ∃ y ∈ (s.walk rules test a).visited, Alike x y := by
  obtain ⟨hself, hfin⟩ := finished_walk hd hs ha hf
  obtain ⟨hsx, m, hm, hnm⟩ := hfin.chain hs ha hself hx hn
  exact ⟨hsx, m, hm, hnm, ((sound_walk hd rules test a).known x).1 ⟨m, hm⟩⟩

end Walk

/-! The members of a search. -/

/-- An expression equal to `b` is reached from `a` by `n` steps or fewer. -/
def Within (rules : List Rule) (a : Expr) (n : Nat) (b : Expr) : Prop :=
  ∃ m ≤ n, ∃ x, Chain (step rules) a m x ∧ x.same b = true

theorem walk_not_found (rules : List Rule) (a : Expr) {d : Nat} (hd : s.depth = some d) :
    (s.walk rules (fun _ => false) a).found = false := by
  have hfound := (sound_walk hd rules (fun _ => false) a).found
  rw [← Bool.not_eq_true, hfound]
  rintro ⟨x, -, hx⟩
  cases hx

variable {d : Nat}

theorem members_spec (hd : s.depth = some d)
    (hr : ∀ i ∈ s.identities, ∀ r ∈ i.rules, r.Regular) (ha : Stable a) :
    (∃ es, s.members a = a :: es) ∧ (s.members a).Pairwise (fun x y => x.same y = false) ∧
      (∀ x ∈ s.members a, ∃ n ≤ d, Chain (step (s.rules [a])) a n x) ∧
        ∀ n ≤ d, ∀ x, Chain (step (s.rules [a])) a n x → ∃ y ∈ s.members a, x.same y = true := by
  have hsound := sound_walk hd (s.rules [a]) (fun _ => false) a
  have hsteps := stepsAlike (regular_rules hr (List.forall_mem_singleton.2 ha))
  refine ⟨?_, ?_, fun x hx => hsound.chain x (List.mem_reverse.1 hx), fun n hn x hx => ?_⟩
  · obtain ⟨vs, hvs⟩ := hsound.first
    exact ⟨vs.reverse, by rw [members, hvs, List.reverse_append]; rfl⟩
  · rw [members, List.pairwise_reverse]
    exact hsound.apart.imp fun hxy => Bool.not_eq_true _ ▸ fun hs => hxy (same_iff.1 hs).symm
  · obtain ⟨-, m, -, -, y, hy, hxy⟩ :=
      exists_visited hd hsteps ha (walk_not_found _ _ hd) hx hn
    exact ⟨y, List.mem_reverse.2 hy, same_iff.2 hxy⟩

theorem pairwise_of_forall₂ {α β : Type} {R : α → β → Prop} {S : β → β → Prop} {xs : List α}
    {ys : List β} (h : List.Forall₂ R xs ys) (hys : ys.Pairwise S) :
    xs.Pairwise fun x x' => ∃ y y', R x y ∧ R x' y' ∧ S y y' := by
  induction h with
  | nil => exact .nil
  | cons hxy h ih =>
    obtain ⟨hy, hys⟩ := List.pairwise_cons.1 hys
    refine List.pairwise_cons.2 ⟨fun x' hx' => ?_, ih hys⟩
    obtain ⟨y', hy', hxy'⟩ := exists_of_forall₂_mem h.flip x' hx'
    exact ⟨_, y', hxy, hxy', hy y' hy'⟩

/-- A wide search finds what is nearer before what is farther. -/
theorem members_ordered (hd : s.depth = some d)
    (hr : ∀ i ∈ s.identities, ∀ r ∈ i.rules, r.Regular) (ha : Stable a)
    (hw : s.strategy = .wide) :
    (s.members a).Pairwise fun x y => ∀ n, Within (s.rules [a]) a n y → Within (s.rules [a]) a n x := by
  have hsteps := stepsAlike (regular_rules hr (List.forall_mem_singleton.2 ha))
  have hvisited {n : Nat} {x : Expr} (hx : Chain (step (s.rules [a])) a n x) (hn : n ≤ d) :=
    exists_visited hd hsteps ha (walk_not_found (s.rules [a]) a hd) hx hn
  have hleveled : (s.walk (s.rules [a]) (fun _ => false) a).Leveled (step (s.rules [a])) a d 0 := by
    rw [walk, hd, hw]
    have hstart : (Walk.start (fun _ => false) d a).Leveled (step (s.rules [a])) a d d :=
      ⟨[d], List.pairwise_singleton _ _, List.forall_mem_singleton.2 (Nat.le_refl d),
        .cons ⟨by rw [Walk.start, Table.get?_insert, if_pos (alike_refl a)],
          Walk.reached_start⟩ .nil⟩
    exact hstart.wide (List.forall_mem_singleton.2 Walk.reached_start)
  obtain ⟨ls, hls, -, hvis⟩ := hleveled
  rw [members, List.pairwise_reverse]
  refine (pairwise_of_forall₂ hvis hls).imp fun {y x} h n hn => ?_
  obtain ⟨l, m, ⟨hy, -⟩, ⟨-, hx⟩, hlm⟩ := h
  obtain ⟨k, hkn, z, hz, hzy⟩ := hn
  by_cases hkd : k ≤ d
  · -- the steps that are left from `y` tell how near it is, and from `x` no fewer are left
    obtain ⟨-, l', hl', hkl, -⟩ := hvisited hz hkd
    rw [Table.get?_alike _ (same_iff.1 hzy), hy, Option.some.injEq] at hl'
    exact ⟨d - m, by omega, x, hx.2, same_iff.2 (.refl x)⟩
  · exact ⟨d - m, by omega, x, hx.2, same_iff.2 (.refl x)⟩

theorem cheapest_spec (cost : Expr → Nat) (e : Expr) (es : List Expr) :
    ∃ us vs, e :: es = us ++ cheapest cost e es :: vs ∧
      (∀ u ∈ us, cost (cheapest cost e es) < cost u) ∧
        ∀ v ∈ vs, cost (cheapest cost e es) ≤ cost v := by
  induction es generalizing e with
  | nil => exact ⟨[], [], rfl, List.forall_mem_nil _, List.forall_mem_nil _⟩
  | cons f es ih =>
    rw [cheapest]
    split
    · next hlt =>
      obtain ⟨us, vs, heq, hus, hvs⟩ := ih f
      refine ⟨e :: us, vs, by rw [heq]; rfl, List.forall_mem_cons.2 ⟨?_, hus⟩, hvs⟩
      -- what is cheapest costs no more than `f`, which costs less than `e`
      have hf : f ∈ us ++ cheapest cost f es :: vs := heq ▸ List.mem_cons_self
      rcases List.mem_append.1 hf with hf | hf
      · exact (hus f hf).trans hlt
      rcases List.mem_cons.1 hf with hf | hf
      · exact hf ▸ hlt
      · exact (hvs f hf).trans_lt hlt
    · next hle =>
      obtain ⟨us, vs, heq, hus, hvs⟩ := ih e
      cases us with
      | nil =>
        obtain ⟨he, rfl⟩ := List.cons.inj heq
        rw [← he] at hvs ⊢
        exact ⟨[], f :: es, rfl, List.forall_mem_nil _,
          List.forall_mem_cons.2 ⟨Nat.le_of_not_lt hle, hvs⟩⟩
      | cons u us =>
        obtain ⟨rfl, htail⟩ := List.cons.inj heq
        obtain ⟨hu, hus⟩ := List.forall_mem_cons.1 hus
        refine ⟨e :: f :: us, vs, congrArg (e :: f :: ·) htail, ?_, hvs⟩
        exact List.forall_mem_cons.2 ⟨hu, List.forall_mem_cons.2 ⟨by omega, hus⟩⟩

theorem simplestBy_spec (hd : s.depth = some d) (cost : Expr → Nat) (a : Expr) :
    ∃ us vs, s.members a = us ++ s.simplestBy cost a :: vs ∧
      (∀ u ∈ us, cost (s.simplestBy cost a) < cost u) ∧
        ∀ v ∈ vs, cost (s.simplestBy cost a) ≤ cost v := by
  obtain ⟨ws, hws⟩ := (sound_walk hd (s.rules [a]) (fun _ => false) a).first
  have hmembers : s.members a = a :: ws.reverse := by
    rw [members, hws, List.reverse_append]
    rfl
  rw [simplestBy, hmembers, cheapest, if_neg (Nat.lt_irrefl _)]
  exact cheapest_spec cost a ws.reverse

/-- What a search proves is what it reaches, as it stands or in atomic form. -/
theorem proves_iff (hd : s.depth = some d) (hr : ∀ i ∈ s.identities, ∀ r ∈ i.rules, r.Regular)
    (ha : Stable a) (hb : Stable b) :
    s.proves a b = true ↔ ∃ n ≤ d, ∃ x, Chain (step (s.rules [a, b])) a n x ∧
      (x.same b = true ∨ x.atomic.same b.atomic = true) := by
  have hsteps := stepsAlike (regular_rules hr (Closed.forall_pair ha hb))
  have hsound := sound_walk hd (s.rules [a, b])
    (fun e => e.same b || e.atomic.same b.atomic) a
  have hproves : s.proves a b = true ↔ ∃ x ∈ (s.walk (s.rules [a, b])
      (fun e => e.same b || e.atomic.same b.atomic) a).visited,
        (x.same b || x.atomic.same b.atomic) = true := hsound.found
  constructor
  · intro h
    obtain ⟨x, hx, ht⟩ := hproves.1 h
    obtain ⟨n, hn, hc⟩ := hsound.chain x hx
    exact ⟨n, hn, x, hc, Bool.or_eq_true _ _ ▸ ht⟩
  · rintro ⟨n, hn, x, hx, ht⟩
    by_contra hf
    obtain ⟨hsx, -, -, -, y, hy, hxy⟩ :=
      exists_visited hd hsteps ha (Bool.not_eq_true _ ▸ hf) hx hn
    -- what is visited instead passes the test too
    have hsy : Stable y := by
      have hall := @walk_holds Stable s _ (fun r hmem e he d hd =>
        kept_stable.rule (regular_rules hr (Closed.forall_pair ha hb) r hmem).replacement he d hd)
        (fun e => e.same b || e.atomic.same b.atomic) a ha
      exact hall y hy
    refine hf (hproves.2 ⟨y, hy, ?_⟩)
    rw [Bool.or_eq_true]
    refine ht.imp (fun h => ?_) fun h => ?_
    · exact same_iff.2 (hxy.symm.trans (same_iff.1 h))
    · exact same_iff.2 ((atomic_alike hsx hsy hxy).symm.trans (same_iff.1 h))

/-- With regular identities, a search of `d` steps finds the start first, no two equal expressions,
and up to equality exactly what chains of `d` steps or fewer lead to; a wide search finds what is
nearer first. So either order finds what the other does, and more steps find more. It proves what
such a chain leads to, as it stands or in atomic form, and picks the first of the least expensive
members. -/
theorem explores_reachable (hd : s.depth = some d)
    (hr : ∀ i ∈ s.identities, ∀ r ∈ i.rules, r.Regular) (ha : Stable a) (hb : Stable b) :
    (∃ es, s.members a = a :: es) ∧ (s.members a).Pairwise (fun x y => x.same y = false) ∧
      (∀ x ∈ s.members a, ∃ n ≤ d, Chain (step (s.rules [a])) a n x) ∧
      (∀ n ≤ d, ∀ x, Chain (step (s.rules [a])) a n x → ∃ y ∈ s.members a, x.same y = true) ∧
      (s.strategy = .wide → (s.members a).Pairwise fun x y =>
        ∀ n, Within (s.rules [a]) a n y → Within (s.rules [a]) a n x) ∧
      (∀ strategy c, d ≤ c → ∀ x ∈ s.members a,
        ∃ y ∈ ({ s with depth := some c, strategy := strategy } : Search).members a,
          x.same y = true) ∧
      (s.proves a b = true ↔ ∃ n ≤ d, ∃ x, Chain (step (s.rules [a, b])) a n x ∧
        (x.same b = true ∨ x.atomic.same b.atomic = true)) ∧
      ∀ cost, ∃ us vs, s.members a = us ++ s.simplestBy cost a :: vs ∧
        (∀ u ∈ us, cost (s.simplestBy cost a) < cost u) ∧
          ∀ v ∈ vs, cost (s.simplestBy cost a) ≤ cost v := by
  obtain ⟨hfirst, hapart, hreached, hall⟩ := members_spec hd hr ha
  refine ⟨hfirst, hapart, hreached, hall, members_ordered hd hr ha, fun strategy c hdc x hx => ?_,
    proves_iff hd hr ha hb, fun cost => simplestBy_spec hd cost a⟩
  obtain ⟨n, hn, hc⟩ := hreached x hx
  exact (@members_spec { s with depth := some c, strategy := strategy } a c rfl hr ha).2.2.2 n
    (hn.trans hdc) x hc

def factored : Expr := ofName "x" * (ofName "y" + const 1)

theorem stable_factored : Stable factored :=
  kept_stable.product (Closed.forall_pair (kept_stable.var _ _)
    (kept_stable.sum (Closed.forall_pair (kept_stable.var _ _) (kept_stable.const 1))))

/-- The standard search, three steps deep, finds whatever is reached from `x * (y + 1)`, and each
expression once. -/
theorem explores_reachable_standard :
    (standard.members factored).Pairwise (fun x y => x.same y = false) ∧
      ∀ n ≤ 3, ∀ x, Chain (step (standard.rules [factored])) factored n x →
        ∃ y ∈ standard.members factored, x.same y = true := by
  obtain ⟨-, hapart, -, hall, -⟩ :=
    explores_reachable rfl regular_standard stable_factored stable_factored
  exact ⟨hapart, hall⟩

/-! A replacement that is not steady. -/

/-- Twice the variable `x` of a site. -/
def twice (k : Site) : Expr := productOf [const 2, .var (Symbol.ofName "x") k]

/-- A product that is not steady: two of its factors have become equal. -/
def collided : Expr :=
  productOf [powOf (const 2) (twice 0), powOf (const 2) (twice 0),
    powOf (const 2) (productOf [const 2, twice 0])]

/-- Two ways to rewrite a sum that lead to equal expressions if both variables stand for equal ones,
and a third identity with a side that is not steady. -/
def collidingSides : List (Expr × Expr) :=
  let a := ofName "a"
  let b := ofName "b"
  let start := sumOf [applyOf .ln a, applyOf .sin b]
  [(start, sumOf [applyOf .arctan a, applyOf .arcsin b]),
    (start, sumOf [applyOf .arctan b, applyOf .arcsin a]),
    (applyOf .arctan (twice 0), collided)]

/-- Two steps by these identities. -/
def colliding : Search :=
  ⟨some 2, .wide, collidingSides.filterMap fun (left, right) =>
    (Identity.ofSides left right).toOption, false⟩

def collidingStart : Expr := sumOf [applyOf .ln (twice 0), applyOf .sin (twice 1)]

def collidingTarget : Expr :=
  sumOf [powOf (const 2) (productOf [const 8, ofName "x"]), applyOf .arcsin (twice 1)]

/-- The search misses an expression that is two steps away: of two equal expressions that the first
step leads to, it goes on from the one that leads elsewhere. -/
theorem not_proves_reachable :
    (∃ n ≤ 2, ∃ x, Chain (step (colliding.rules [collidingStart, collidingTarget]))
        collidingStart n x ∧ x.same collidingTarget = true) ∧
      colliding.proves collidingStart collidingTarget = false := by
  let rules := colliding.rules [collidingStart, collidingTarget]
  let x := sumOf [applyOf .arctan (twice 1), applyOf .arcsin (twice 0)]
  let y := sumOf [powOf (const 2) (productOf [const 8, .var (Symbol.ofName "x") 1]),
    applyOf .arcsin (twice 0)]
  have hx : (step rules collidingStart)[1]? = some x := by decide +kernel
  have hy : (step rules x)[2]? = some y := by decide +kernel
  have hsame : y.same collidingTarget = true := by decide +kernel
  have hchain : Chain (step rules) collidingStart 2 y :=
    .snoc (.snoc .start (List.mem_of_getElem? hx)) (List.mem_of_getElem? hy)
  exact ⟨⟨2, Nat.le_refl 2, y, hchain, hsame⟩, by decide +kernel⟩

end Search

end Symbolic
