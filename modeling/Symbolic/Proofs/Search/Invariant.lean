import Symbolic.Proofs.Expr.Alike
import Symbolic.Search.Basic

/-!
What holds all along a walk. In either order a walk does nothing but visit expressions that have not
been met and note that more steps are left from one that has (`Moves`), so what these two keep holds
in the end. A property of the start that every step keeps holds of everything that is visited, and so
of what a search finds (`Search.forall_mem_members`, `Search.simplestBy_holds`).
-/

namespace Symbolic

open Symbolic.Expr

namespace Walk

/-- The second walk comes of the first one by visits and by notes that more steps are left. `ok n e`
says that `e` may be met with `n` steps left. Nothing more is done once the test has been passed. -/
inductive Moves (test : Expr → Bool) (ok : Nat → Expr → Prop) (w : Walk) : Walk → Prop where
  | refl : Moves test ok w w
  | visit {v : Walk} {n : Nat} {e : Expr} : Moves test ok w v → v.found = false →
      v.left.get? e = none → ok n e → Moves test ok w (v.visit test n e)
  | raise {v : Walk} {m n : Nat} {e : Expr} : Moves test ok w v → v.found = false →
      v.left.get? e = some m → m < n → ok n e → Moves test ok w { v with left := v.left.insert e n }

variable {test : Expr → Bool} {ok ok' : Nat → Expr → Prop} {w w' v : Walk}

namespace Moves

theorem trans (h : Moves test ok w w') (h' : Moves test ok w' v) : Moves test ok w v := by
  induction h' with
  | refl => exact h
  | visit _ hf hn hok ih => exact .visit ih hf hn hok
  | raise _ hf hm hlt hok ih => exact .raise ih hf hm hlt hok

theorem mono (h : Moves test ok w w') (hok : ∀ {n e}, ok n e → ok' n e) : Moves test ok' w w' := by
  induction h with
  | refl => exact .refl
  | visit _ hf hn h ih => exact .visit ih hf hn (hok h)
  | raise _ hf hm hlt h ih => exact .raise ih hf hm hlt (hok h)

/-- As long as the test has not been passed, it had not been passed before. -/
theorem not_found (h : Moves test ok w w') (hw' : w'.found = false) : w.found = false := by
  induction h with
  | refl => exact hw'
  | visit _ hf _ _ ih => exact ih hf
  | raise _ hf _ _ _ ih => exact ih hf

theorem le_left (h : Moves test ok w w') {x : Expr} {m : Nat} (hm : w.left.get? x = some m) :
    ∃ l, w'.left.get? x = some l ∧ m ≤ l := by
  induction h with
  | refl => exact ⟨m, hm, Nat.le_refl m⟩
  | visit _ _ hn _ ih =>
    obtain ⟨l, hl, hml⟩ := ih
    refine ⟨l, ?_, hml⟩
    rw [Walk.visit, Table.get?_insert, if_neg ?_, hl]
    intro hx
    rw [Table.get?_alike _ hx, hn] at hl
    cases hl
  | @raise v k n e _ _ hk hkn _ ih =>
    obtain ⟨l, hl, hml⟩ := ih
    rw [Table.get?_insert]
    split
    · next hx =>
      rw [Table.get?_alike _ hx, hk, Option.some.injEq] at hl
      exact ⟨n, rfl, by omega⟩
    · exact ⟨l, hl, hml⟩

/-- Where fewer than `n` steps are ever left, what had `n` or more left before keeps them. -/
theorem left_eq {n : Nat} (h : Moves test ok w w') (hok : ∀ {k e}, ok k e → k < n) {x : Expr}
    {m : Nat} (hm : w.left.get? x = some m) (hnm : n ≤ m) : w'.left.get? x = some m := by
  induction h with
  | refl => exact hm
  | visit _ _ hn _ ih =>
    rw [Walk.visit, Table.get?_insert, if_neg ?_, ih]
    intro hx
    rw [Table.get?_alike _ hx, hn] at ih
    cases ih
  | raise _ _ hk hkn h ih =>
    rw [Table.get?_insert, if_neg ?_, ih]
    intro hx
    rw [Table.get?_alike _ hx, hk, Option.some.injEq] at ih
    have := hok h
    omega

end Moves

/-! Both orders go by moves. -/

variable {step : Expr → List Expr} {n : Nat}

theorem moves_visitNew {es : List Expr} (hes : ∀ e ∈ es, ok n e) (w : Walk) (fresh : List Expr) :
    Moves test ok w (visitNew test n es w fresh).1 ∧
      ∀ e ∈ (visitNew test n es w fresh).2, e ∈ fresh ∨ ok n e := by
  induction es generalizing w fresh with
  | nil => exact ⟨.refl, fun _ => .inl⟩
  | cons e es ih =>
    obtain ⟨he, hes⟩ := List.forall_mem_cons.1 hes
    rw [visitNew]
    split
    · exact ⟨.refl, fun _ => .inl⟩
    next hf =>
    split
    · exact ih hes w fresh
    · next hn =>
      have hn : w.left.get? e = none := Option.not_isSome_iff_eq_none.1 hn
      obtain ⟨hmoves, hfresh⟩ := ih hes (w.visit test n e) (e :: fresh)
      refine ⟨(Moves.visit .refl (Bool.not_eq_true _ ▸ hf) hn he).trans hmoves, fun d hd => ?_⟩
      rcases hfresh d hd with hd | hd
      · rcases List.mem_cons.1 hd with rfl | hd
        · exact .inr he
        · exact .inl hd
      · exact .inr hd

theorem visitNew_append (xs ys : List Expr) (w : Walk) (fresh : List Expr) :
    visitNew test n (xs ++ ys) w fresh =
      visitNew test n ys (visitNew test n xs w fresh).1 (visitNew test n xs w fresh).2 := by
  induction xs generalizing w fresh with
  | nil => rfl
  | cons x xs ih =>
    rw [List.cons_append, visitNew, visitNew]
    split
    · cases ys with
      | nil => rfl
      | cons y ys => rw [visitNew, if_pos ‹_›]
    split
    · exact ih w fresh
    · exact ih _ _

theorem nextLevel_eq (level : List Expr) (w : Walk) (fresh : List Expr) :
    nextLevel step test n level w fresh = visitNew test n (level.flatMap step) w fresh := by
  induction level generalizing w fresh with
  | nil => rfl
  | cons e es ih =>
    rw [nextLevel, List.flatMap_cons, visitNew_append]
    split
    · next hf =>
      have hstop (es : List Expr) : visitNew test n es w fresh = (w, fresh) := by
        cases es with
        | nil => rfl
        | cons e es => rw [visitNew, if_pos hf]
      rw [hstop, hstop]
    · exact ih _ _

theorem moves_wide (hok : ∀ {n e d}, ok (n + 1) e → d ∈ step e → ok n d) {level : List Expr}
    (hl : ∀ e ∈ level, ok n e) (w : Walk) :
    Moves test (fun m e => m < n ∧ ok m e) w (wide step test n level w) := by
  induction n generalizing level w with
  | zero => exact .refl
  | succ n ih =>
    have hstep : ∀ d ∈ level.flatMap step, n < n + 1 ∧ ok n d := by
      intro d hd
      obtain ⟨e, he, hd⟩ := List.mem_flatMap.1 hd
      exact ⟨Nat.lt_succ_self n, hok (hl e he) hd⟩
    obtain ⟨hmoves, hfresh⟩ := @moves_visitNew test (fun m e => m < n + 1 ∧ ok m e) n _ hstep w []
    rw [wide, nextLevel_eq]
    generalize visitNew test n (level.flatMap step) w [] = p at hmoves hfresh
    obtain ⟨w', fresh⟩ := p
    simp only
    split
    · exact hmoves
    · refine hmoves.trans ((ih (fun e he => ?_) w').mono fun h => ⟨Nat.lt_succ_of_lt h.1, h.2⟩)
      exact ((hfresh e (List.mem_reverse.1 he)).resolve_left (List.not_mem_nil)).2

theorem moves_note {es : List Expr} (hes : ∀ e ∈ es, ok n e) (w : Walk) (next : List Expr) :
    Moves test ok w (note test n es w next).1 ∧
      ∀ e ∈ (note test n es w next).2, e ∈ next ∨ ok n e := by
  induction es generalizing w next with
  | nil => exact ⟨.refl, fun _ => .inl⟩
  | cons e es ih =>
    obtain ⟨he, hes⟩ := List.forall_mem_cons.1 hes
    have hcons {v : Walk} (h : ∀ d ∈ (note test n es v (e :: next)).2, d ∈ e :: next ∨ ok n d) :
        ∀ d ∈ (note test n es v (e :: next)).2, d ∈ next ∨ ok n d := by
      intro d hd
      rcases h d hd with hd | hd
      · rcases List.mem_cons.1 hd with rfl | hd
        · exact .inr he
        · exact .inl hd
      · exact .inr hd
    rw [note]
    split
    · exact ⟨.refl, fun _ => .inl⟩
    next hf =>
    have hf : w.found = false := Bool.not_eq_true _ ▸ hf
    split
    · next hn =>
      obtain ⟨hmoves, hnext⟩ := ih hes (w.visit test n e) (e :: next)
      exact ⟨(Moves.visit .refl hf hn he).trans hmoves, hcons hnext⟩
    · next m hm =>
      split
      · exact ih hes w next
      · obtain ⟨hmoves, hnext⟩ := ih hes { w with left := w.left.insert e n } (e :: next)
        exact ⟨(Moves.raise .refl hf hm (by omega) he).trans hmoves, hcons hnext⟩

theorem moves_foldl {f : Walk → Expr → Walk} {es : List Expr}
    (hf : ∀ e ∈ es, ∀ v, Moves test ok v (f v e)) (w : Walk) : Moves test ok w (es.foldl f w) := by
  induction es generalizing w with
  | nil => exact .refl
  | cons e es ih =>
    obtain ⟨he, hes⟩ := List.forall_mem_cons.1 hf
    exact (he w).trans (ih hes (f w e))

theorem moves_deep (hok : ∀ {n e d}, ok (n + 1) e → d ∈ step e → ok n d) {e : Expr} (he : ok n e)
    (w : Walk) : Moves test (fun m e => m < n ∧ ok m e) w (deep step test n e w) := by
  induction n generalizing e w with
  | zero => exact .refl
  | succ n ih =>
    rw [deep]
    split
    · exact .refl
    have hstep : ∀ d ∈ step e, n < n + 1 ∧ ok n d := fun d hd => ⟨Nat.lt_succ_self n, hok he hd⟩
    obtain ⟨hmoves, hnext⟩ := @moves_note test (fun m e => m < n + 1 ∧ ok m e) n _ hstep w []
    have hnext : ∀ d ∈ (note test n (step e) w []).2, ok n d :=
      fun d hd => ((hnext d hd).resolve_left List.not_mem_nil).2
    -- each of what was noted is gone through in turn
    exact hmoves.trans (moves_foldl (fun d hd v =>
      (ih (hnext d hd) v).mono fun h => ⟨Nat.lt_succ_of_lt h.1, h.2⟩) _)

/-! What is visited. -/

variable {P : Expr → Prop}

/-- Everything that has been visited has the property. -/
def Holds (P : Expr → Prop) (w : Walk) : Prop := ∀ e ∈ w.visited, P e

theorem Holds.moves (hw : w.Holds P) (h : Moves test ok w w') (hok : ∀ {n e}, ok n e → P e) :
    w'.Holds P := by
  induction h with
  | refl => exact hw
  | visit _ _ _ he ih => exact List.forall_mem_cons.2 ⟨hok he, ih⟩
  | raise _ _ _ _ _ ih => exact ih

end Walk

namespace Search

variable {P : Expr → Prop} {s : Search}

theorem step_keeps {rules : List Rule} (h : ∀ r ∈ rules, ∀ e, P e → ∀ d ∈ r.apply e, P d) :
    ∀ e, P e → ∀ d ∈ step rules e, P d := by
  intro e he d hd
  obtain ⟨r, hr, hd⟩ := List.mem_flatMap.1 hd
  exact h r hr e he d hd

theorem moves_walk {rules : List Rule} {test : Expr → Bool} {ok : Nat → Expr → Prop}
    (hok : ∀ {n e d}, ok (n + 1) e → d ∈ step rules e → ok n d) {e : Expr}
    (he : ok (s.depth.getD unlimited) e) :
    Walk.Moves test ok (Walk.start test (s.depth.getD unlimited) e) (s.walk rules test e) := by
  rw [walk]
  split
  · exact .refl
  split
  · exact (Walk.moves_wide hok (List.forall_mem_singleton.2 he) _).mono fun h => h.2
  · exact (Walk.moves_deep hok he _).mono fun h => h.2

theorem walk_holds {rules : List Rule} (h : ∀ r ∈ rules, ∀ e, P e → ∀ d ∈ r.apply e, P d)
    (test : Expr → Bool) {e : Expr} (he : P e) : (s.walk rules test e).Holds P := by
  have hstart : (Walk.start test (s.depth.getD unlimited) e).Holds P :=
    List.forall_mem_singleton.2 he
  have hmoves : Walk.Moves test (fun _ => P) _ (s.walk rules test e) :=
    moves_walk (fun he => step_keeps h _ he _) he
  exact hstart.moves hmoves id

/-- What the start has, and every rule keeps, all members have. -/
theorem forall_mem_members {e : Expr} (h : ∀ r ∈ s.rules [e], ∀ e, P e → ∀ d ∈ r.apply e, P d)
    (he : P e) : ∀ d ∈ s.members e, P d :=
  fun d hd => walk_holds h _ he d (List.mem_reverse.1 hd)

theorem cheapest_mem (cost : Expr → Nat) (e : Expr) (es : List Expr) :
    cheapest cost e es ∈ e :: es := by
  induction es generalizing e with
  | nil => exact List.mem_cons_self
  | cons d es ih =>
    rw [cheapest]
    rcases List.mem_cons.1 (ih (if cost d < cost e then d else e)) with h | h
    · rw [h]
      split
      · exact List.mem_cons_of_mem _ List.mem_cons_self
      · exact List.mem_cons_self
    · exact List.mem_cons_of_mem _ (List.mem_cons_of_mem _ h)

theorem simplestBy_holds (cost : Expr → Nat) {e : Expr}
    (h : ∀ r ∈ s.rules [e], ∀ e, P e → ∀ d ∈ r.apply e, P d) (he : P e) :
    P (s.simplestBy cost e) := by
  rcases List.mem_cons.1 (cheapest_mem cost e (s.members e)) with hc | hc
  · rw [simplestBy, hc]
    exact he
  · exact forall_mem_members h he _ hc

end Search

end Symbolic
