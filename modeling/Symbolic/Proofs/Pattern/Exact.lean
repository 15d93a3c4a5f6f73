import Symbolic.Proofs.Canonical.Constructible
import Symbolic.Proofs.Pattern.Complete

/-!
Matching finds each match once. The bindings of what is found ascend, so assignments that bind the
same symbols to equal values are equal as they stand (`Assignment.Agrees.same`), and no two
assignments of a set are equal (`AssignmentSet.Proper`). That holds of the sets that matching starts
from and is kept by whatever it does with them (`matcher_induction`). With what is known of the
single match, that it fits and that nothing is left out, the matches are determined
(`Pattern.matching_exact`).
-/

namespace Symbolic

open Symbolic.Expr Symbolic.Matcher

instance : Std.TransCmp Symbol.order :=
  inferInstanceAs (Std.TransCmp (compareOn Symbol.name))

theorem Symbol.order_swap (s t : Symbol) : s.order t = (t.order s).swap := Std.OrientedCmp.eq_swap

namespace Assignment

variable {a b c : Assignment} {s t : Symbol} {e : Expr} {p : Symbol × Expr}
  {bs : List (Symbol × Expr)}

/-- Both bind the same symbols, to equal values. -/
def Agrees (a b : Assignment) : Prop := ∀ s, Option.Rel Alike (a.get? s) (b.get? s)

/-- The bindings ascend, so a symbol is bound once. -/
def Sorted (a : Assignment) : Prop := a.bindings.Pairwise fun p q => p.1.order q.1 = .lt

theorem Agrees.includes (h : a.Agrees b) : a.Includes b := by
  intro s e he
  have hs := h s
  rw [he] at hs
  generalize a.get? s = x at hs ⊢
  cases hs with
  | some hde => exact ⟨_, rfl, hde⟩

theorem Agrees.symm (h : a.Agrees b) : b.Agrees a := by
  intro s
  have hs := h s
  generalize a.get? s = x at hs
  generalize b.get? s = y at hs
  cases hs with
  | none => exact .none
  | some hde => exact .some hde.symm

/-- What includes another assignment and binds nothing else agrees with it. -/
theorem Includes.agrees (h : a.Includes b)
    (hbound : ∀ s, (∃ d, a.get? s = some d) → ∃ d, b.get? s = some d) : a.Agrees b := by
  intro s
  cases hb : b.get? s with
  | some e =>
    obtain ⟨d, hd, hde⟩ := h s e hb
    rw [hd]
    exact .some hde
  | none =>
    cases ha : a.get? s with
    | none => exact .none
    | some d =>
      obtain ⟨e, he⟩ := hbound s ⟨d, ha⟩
      rw [hb] at he
      cases he

theorem get?_eq_none (h : ∀ q ∈ bs, s.order q.1 = .lt) : get? ⟨bs⟩ s = none := by
  rw [get?, Option.map_eq_none_iff, List.find?_eq_none]
  intro q hq heq
  have hlt := h q hq
  rw [of_decide_eq_true heq, Symbol.order_refl] at hlt
  cases hlt

/-- The least symbols of assignments that agree are the same: neither comes before the other. -/
theorem Agrees.not_lt {q : Symbol × Expr} {as : List (Symbol × Expr)}
    (h : Agrees ⟨p :: as⟩ ⟨q :: bs⟩) (hq : Sorted ⟨q :: bs⟩) : p.1.order q.1 ≠ .lt := by
  intro hlt
  have hnone : get? ⟨q :: bs⟩ p.1 = none := by
    refine get?_eq_none (List.forall_mem_cons.2 ⟨hlt, fun r hr => ?_⟩)
    exact Std.TransCmp.lt_trans hlt ((List.pairwise_cons.1 hq).1 r hr)
  have hp := h p.1
  rw [hnone, get?_cons, if_pos rfl] at hp
  cases hp

/-- Assignments that agree are equal, their bindings being in order. -/
theorem Agrees.same (h : a.Agrees b) (ha : a.Sorted) (hb : b.Sorted) : a.same b = true := by
  rw [Assignment.same, Bool.and_eq_true, beq_iff_eq, sameAll_eq_allAlike, allAlike_iff]
  obtain ⟨as⟩ := a
  obtain ⟨bs⟩ := b
  induction as generalizing bs with
  | nil =>
    cases bs with
    | nil => exact ⟨rfl, .nil⟩
    | cons q bs =>
      have hq := h q.1
      rw [get?_cons, if_pos rfl] at hq
      cases hq
  | cons p as ih =>
    cases bs with
    | nil =>
      have hp := h p.1
      rw [get?_cons, if_pos rfl] at hp
      cases hp
    | cons q bs =>
      obtain ⟨hpa, has⟩ := List.pairwise_cons.1 ha
      obtain ⟨hqb, hbs⟩ := List.pairwise_cons.1 hb
      have hpq : p.1 = q.1 := by
        have hlt := h.not_lt hb
        have hgt := h.symm.not_lt ha
        rw [Symbol.order_swap] at hgt
        cases ho : p.1.order q.1 with
        | lt => exact absurd ho hlt
        | eq => exact symbolOrder_eq_eq.1 ho
        | gt => rw [ho] at hgt; exact absurd rfl hgt
      -- the other bindings agree, as neither binds the first symbol
      have hrest : Agrees ⟨as⟩ ⟨bs⟩ := by
        intro s
        have hs := h s
        rw [get?_cons, get?_cons, ← hpq] at hs
        split at hs
        · next heq =>
          rw [get?_eq_none (heq ▸ hpa), get?_eq_none (heq ▸ hpq ▸ hqb)]
          exact .none
        · exact hs
      have hvalue := h p.1
      rw [get?_cons, get?_cons, if_pos rfl, if_pos hpq.symm] at hvalue
      obtain ⟨hkeys, hvals⟩ := ih has bs hbs hrest
      cases hvalue with
      | some hv => exact ⟨List.cons_eq_cons.2 ⟨hpq, hkeys⟩, .cons hv hvals⟩

theorem Sorted.insertSorted (h : Sorted ⟨bs⟩) (hn : get? ⟨bs⟩ s = none) :
    Sorted ⟨Assignment.insertSorted s e bs⟩ := by
  induction bs with
  | nil => exact List.pairwise_singleton _ _
  | cons q bs ih =>
    obtain ⟨hq, hbs⟩ := List.pairwise_cons.1 h
    rw [get?_cons] at hn
    split at hn
    · cases hn
    next hqs =>
    rw [Assignment.insertSorted]
    split
    · next hlt =>
      have hlt := eq_of_beq hlt
      refine List.pairwise_cons.2 ⟨List.forall_mem_cons.2 ⟨hlt, fun r hr => ?_⟩, h⟩
      exact Std.TransCmp.lt_trans hlt (hq r hr)
    · next hlt =>
      have hqs : q.1.order s = .lt := by
        rw [Symbol.order_swap]
        cases ho : s.order q.1 with
        | lt => rw [ho] at hlt; exact absurd rfl hlt
        | eq => exact absurd (symbolOrder_eq_eq.1 ho).symm hqs
        | gt => rfl
      refine List.pairwise_cons.2 ⟨fun r hr => ?_, ih hbs hn⟩
      rcases mem_insertSorted r hr with rfl | hr
      · exact hqs
      · exact hq r hr

theorem Sorted.bind? (h : a.Sorted) (hc : a.bind? s e = some c) : c.Sorted := by
  rw [Assignment.bind?] at hc
  split at hc
  · split at hc
    · exact Option.some.inj hc ▸ h
    · cases hc
  · next hn => exact Option.some.inj hc ▸ h.insertSorted hn

theorem Sorted.bindAll? (h : a.Sorted) (hc : a.bindAll? bs = some c) : c.Sorted := by
  induction bs generalizing a with
  | nil => exact Option.some.inj hc ▸ h
  | cons q bs ih =>
    obtain ⟨b, hb, hc⟩ := Option.bind_eq_some_iff.1 hc
    exact ih (h.bind? hb) hc

theorem fingerprint_eq_of_same (h : a.same b = true) : a.fingerprint = b.fingerprint := by
  rw [Assignment.same, Bool.and_eq_true, sameAll_eq_allAlike] at h
  exact fingerprintList_eq_of_allAlike _ _ h.2 9

end Assignment

namespace AssignmentSet

open Assignment

variable {s t : AssignmentSet}

/-- The bindings of each assignment are in order, and no assignment is equal to an earlier one. -/
structure Proper (s : AssignmentSet) : Prop where
  sorted : ∀ a ∈ s.results, a.Sorted
  apart : s.results.Pairwise fun a b => b.same a = false

theorem proper_singleton {a : Assignment} (h : a.Sorted) : Proper ⟨[a]⟩ where
  sorted := List.forall_mem_singleton.2 h
  apart := List.pairwise_singleton _ _

theorem proper_ofList {as : List Assignment} (h : ∀ a ∈ as, a.Sorted) : (ofList as).Proper where
  sorted a ha := h a (mem_of_mem_distinctFrom a ha)
  apart := (@distinctFrom_apart _ Assignment.fingerprint Assignment.same _ as
    fun _ _ => fingerprint_eq_of_same).2

theorem Proper.inter (hs : s.Proper) (ht : t.Proper) : (s.inter t).Proper := by
  rw [AssignmentSet.inter]
  split
  · exact ⟨List.forall_mem_nil _, .nil⟩
  split
  · exact ht
  split
  · exact hs
  · refine proper_ofList fun c hc => ?_
    obtain ⟨a, ha, hc⟩ := List.mem_flatMap.1 hc
    obtain ⟨b, -, hc⟩ := List.mem_filterMap.1 hc
    exact (hs.sorted a ha).bindAll? hc

theorem Proper.pairwise (h : s.Proper) : s.results.Pairwise fun a b => ¬ a.Agrees b := by
  refine List.Pairwise.imp_of_mem (fun ha hb hab hagree => ?_) h.apart
  rw [hagree.symm.same (h.sorted _ hb) (h.sorted _ ha)] at hab
  cases hab

end AssignmentSet

/-! All sets that matching makes. -/

section Sets

variable {free : List Symbol} {Q : AssignmentSet → Prop} {rebuild : List Expr → Expr}
  {ms : List Matcher} {acc : AssignmentSet}

theorem inOrder_induction (hinter : ∀ {s t}, Q s → Q t → Q (s.inter t)) (hms : ∀ m ∈ ms, ∀ e, Q (m e))
    (es : List Expr) (hacc : Q acc) : Q (inOrder ms es acc) := by
  induction ms generalizing es acc with
  | nil => exact hacc
  | cons m ms ih =>
    obtain ⟨hm, hms⟩ := List.forall_mem_cons.1 hms
    cases es with
    | nil => exact hacc
    | cons e es =>
      rw [inOrder]
      split
      · exact hacc
      · exact ih hms es (hinter hacc (hm e))

theorem groupsInOrder_induction (hnone : Q .none) (hinter : ∀ {s t}, Q s → Q t → Q (s.inter t))
    (hms : ∀ m ∈ ms, ∀ e, Q (m e)) (es : List Expr) (gs : List (List Nat)) (hacc : Q acc) :
    Q (groupsInOrder (ms.map (groupTable rebuild es)) gs acc) := by
  induction ms generalizing gs acc with
  | nil => exact hacc
  | cons m ms ih =>
    obtain ⟨hm, hms⟩ := List.forall_mem_cons.1 hms
    cases gs with
    | nil => exact hacc
    | cons g gs =>
      rw [List.map_cons, groupsInOrder]
      split
      · exact hacc
      split
      · next found hf =>
        refine ih hms gs (hinter hacc ?_)
        rw [groupTable, Array.getElem?_ofFn] at hf
        split at hf
        · cases hf
          exact hm _
        · cases hf
      · exact hnone

theorem commutative_induction (hnone : Q .none) (hall : Q .all)
    (hinter : ∀ {s t}, Q s → Q t → Q (s.inter t))
    (hlist : ∀ {ss : List AssignmentSet}, (∀ s ∈ ss, Q s) → Q (.ofList (ss.flatMap (·.results))))
    (hms : ∀ m ∈ ms, ∀ e, Q (m e)) (es : List Expr) : Q (commutative rebuild ms es) := by
  rw [commutative]
  split
  · exact hnone
  · have hgroups := @hlist ((Blocks.ordered es.length ms.length).map fun gs =>
      groupsInOrder (ms.map (groupTable rebuild es)) gs .all)
      (List.forall_mem_map.2 fun gs _ => groupsInOrder_induction hnone hinter hms es gs hall)
    rwa [List.flatMap_map] at hgroups

/-- What holds of the sets that matching starts from, and is kept by what it does with sets, holds
of what it finds. -/
theorem matcher_induction (hnone : Q .none) (hall : Q .all)
    (hsingle : ∀ s e, Q (.single (.single s e))) (hinter : ∀ {s t}, Q s → Q t → Q (s.inter t))
    (hlist : ∀ {ss : List AssignmentSet}, (∀ s ∈ ss, Q s) → Q (.ofList (ss.flatMap (·.results))))
    (p : Expr) : ∀ e, Q (Expr.matcher free p e) := by
  have hmatchers {ps : List Expr} (ih : ∀ p ∈ ps, ∀ e, Q (Expr.matcher free p e)) :
      ∀ m ∈ Expr.matchers free ps, ∀ e, Q (m e) := by
    intro m hm
    obtain ⟨p, hp, rfl⟩ := Kept.mem_matchers m hm
    exact ih p hp
  refine Kept.matcher_recursion (Q := fun _ _ s => Q s) ?none ?const ?free_var ?other_var ?sum
    ?product ?pow ?apply ?call p
  case none => exact fun _ _ => hnone
  case const => exact fun _ => hall
  case free_var => exact fun s _ e _ => hsingle s e
  case other_var => exact fun _ _ _ _ => hall
  case sum => exact fun _ es ih => commutative_induction hnone hall hinter hlist (hmatchers ih) es
  case product => exact fun _ es ih => commutative_induction hnone hall hinter hlist (hmatchers ih) es
  case pow => exact fun hs ht => hinter hs ht
  case apply => exact fun _ _ _ _ hs => hs
  case call => exact fun _ es _ ih => inOrder_induction hinter (hmatchers ih) es hall

theorem matcher_proper (p e : Expr) : (Expr.matcher free p e).Proper := by
  refine matcher_induction ?none ?all ?single ?inter ?list p e
  case none => exact ⟨List.forall_mem_nil _, .nil⟩
  case all => exact AssignmentSet.proper_singleton .nil
  case single => exact fun s e => AssignmentSet.proper_singleton (List.pairwise_singleton _ _)
  case inter => exact fun hs ht => hs.inter ht
  case list =>
    intro ss hss
    refine AssignmentSet.proper_ofList fun a ha => ?_
    obtain ⟨s, hs, ha⟩ := List.mem_flatMap.1 ha
    exact (hss s hs).sorted a ha

end Sets

namespace Pattern

variable {p : Pattern} {e : Expr} {a : Assignment}

/-- The assignment binds the free variables that occur in the pattern, and nothing else. -/
def BoundBy (p : Pattern) (a : Assignment) : Prop :=
  ∀ s, (∃ d, a.get? s = some d) ↔ s ∈ p.free ∧ s ∈ p.expr.occurrences

theorem boundBy_of_mem (hp : Canonical p.expr) (he : Canonical e)
    (ha : a ∈ (p.matches? e).results) : p.BoundBy a := by
  have hm := matcher_finds p.free p.expr e a ha
  intro s
  constructor
  · rintro ⟨d, hd⟩
    exact hm.bound s d hd
  · rintro ⟨hfree, hocc⟩
    exact hm.fits.binds hp he hfree hocc

/-- Matching finds exactly the matches: what it finds binds the free variables of the pattern, no two
of the results agree, and an assignment of these variables makes the pattern the target if and only
if one of the results agrees with it. -/
theorem matching_exact (hp : Constructible p.expr) (he : Constructible e) :
    (∀ a ∈ (p.matches? e).results, p.BoundBy a) ∧
      (p.matches? e).results.Pairwise (fun a b => ¬ a.Agrees b) ∧
        ∀ d, p.BoundBy d →
          (Fits p.free d p.expr e ↔ ∃ a ∈ (p.matches? e).results, d.Agrees a) := by
  have hp := hp.holds closed_canonical
  have he := he.holds closed_canonical
  refine ⟨fun a ha => boundBy_of_mem hp he ha, (matcher_proper p.expr e).pairwise, fun d hd => ?_⟩
  constructor
  · intro hfits
    obtain ⟨a, ha, hda⟩ := exists_mem_matcher p.expr he hfits
    refine ⟨a, ha, hda.agrees fun s hs => ?_⟩
    exact (boundBy_of_mem hp he ha s).2 ((hd s).1 hs)
  · rintro ⟨a, ha, hda⟩
    exact (matcher_finds p.free p.expr e a ha).fits.mono hda.includes

/-- Two free variables share out the terms of `x + y + z` in six ways. -/
theorem matching_exact_sum :
    let p := Pattern.ofExpr (sumOf [ofName "a", ofName "b"])
    let e := sumOf [ofName "x", ofName "y", ofName "z"]
    (p.matches? e).results.length = 6 ∧ (∀ a ∈ (p.matches? e).results, p.BoundBy a) ∧
      (p.matches? e).results.Pairwise (fun a b => ¬ a.Agrees b) ∧
        ∀ d, p.BoundBy d →
          (Fits p.free d p.expr e ↔ ∃ a ∈ (p.matches? e).results, d.Agrees a) := by
  have hvar (s : String) : Constructible (ofName s) := .var _ _
  have hpair : ∀ e ∈ [ofName "a", ofName "b"], Constructible e :=
    Closed.forall_pair (hvar "a") (hvar "b")
  have htriple : ∀ e ∈ [ofName "x", ofName "y", ofName "z"], Constructible e :=
    List.forall_mem_cons.2 ⟨hvar "x", Closed.forall_pair (hvar "y") (hvar "z")⟩
  exact ⟨by decide +kernel, matching_exact (.sum hpair) (.sum htriple)⟩

end Pattern

end Symbolic
