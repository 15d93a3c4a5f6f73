import Symbolic.Proofs.Canonical.Constructible
import Symbolic.Proofs.Canonical.Steady
import Symbolic.Proofs.Numeric.Evaluate
import Symbolic.Proofs.Program.Ordered

/-!
How much graph code an expression has. Every class of equal subtrees is written out once, with the
instructions that its node takes (`Expr.instructions`); `Represents` picks one subtree of each class.

The parts that have places stand for classes. While the operands of a node are joined, there are
instructions that no part accounts for; `Graph.Written` counts them. What a piece of lowering adds is
said for any graph that it starts from (`Graph.Adds`): a node starts where its operands have ended,
and is not among what they have added, as those are all smaller.
-/

namespace Symbolic

namespace Expr

/-- The instructions of a node, once its operands are written out. Of a sum or product, the operands
after the first are joined one by one. -/
def instructions : Expr → Nat
  | sum es | product es => es.length - 1
  | _ => 1

variable {a b e : Expr} {ds ds' : List Expr}

theorem instructions_alike (h : Alike a b) : a.instructions = b.instructions := by
  cases a with
  | const c => rw [h.eq_const]
  | var s k =>
    obtain ⟨l, rfl⟩ := h.eq_var
    rfl
  | sum as =>
    obtain ⟨bs, rfl, hbs⟩ := h.eq_sum
    rw [instructions, instructions, hbs.length_eq]
  | product as =>
    obtain ⟨bs, rfl, hbs⟩ := h.eq_product
    rw [instructions, instructions, hbs.length_eq]
  | pow x p =>
    obtain ⟨x', p', rfl, -, -⟩ := h.eq_pow
    rfl
  | apply f a =>
    obtain ⟨b, rfl, -⟩ := h.eq_apply
    rfl
  | call f ps b as =>
    obtain ⟨b', bs, rfl, -, -⟩ := h.eq_call
    rfl

/-- One subtree of each class of equal ones. -/
structure Represents (e : Expr) (ds : List Expr) : Prop where
  subtrees : ∀ d ∈ ds, Subtree e d
  apart : ds.Pairwise fun d d' => d.same d' = false
  all : ∀ t, Subtree e t → ∃ d ∈ ds, t.same d = true

/-- Every class is found, if that of the expression is and those of operands are. -/
theorem represents_of_operands (hsub : ∀ d ∈ ds, Subtree e d)
    (happart : ds.Pairwise fun d d' => d.same d' = false) (hself : ∃ d ∈ ds, e.same d = true)
    (hoperands : ∀ d ∈ ds, ∀ t ∈ d.operands, ∃ d' ∈ ds, t.same d' = true) :
    Represents e ds where
  subtrees := hsub
  apart := happart
  all t ht := by
    induction ht with
    | self => exact hself
    | operand _ ht ih =>
      -- an operand is equal to one of the subtree that stands for the node
      obtain ⟨r, hr, hdr⟩ := ih
      obtain ⟨t', ht', htt'⟩ := (same_iff.1 hdr).operands.exists_left _ ht
      obtain ⟨d', hd', htd'⟩ := hoperands r hr t' ht'
      exact ⟨d', hd', same_iff.2 (htt'.trans (same_iff.1 htd'))⟩

/-- It makes no difference which subtrees stand for their classes. -/
theorem Represents.rearranged (h : Represents e ds) (h' : Represents e ds') :
    Rearranged Alike ds ds' := by
  have hnot {a b : Expr} (hab : a.same b = false) (halike : Alike a b) : False :=
    Bool.false_ne_true (hab.symm.trans (same_iff.2 halike))
  refine rearranged_of_apart (h.apart.imp fun hab c hac hbc => hnot hab (hac.trans hbc.symm))
    (h'.apart.imp fun hab c hca hcb => hnot hab (hca.symm.trans hcb)) ?_ ?_
  · intro d hd
    obtain ⟨d', hd', hdd'⟩ := h'.all d (h.subtrees d hd)
    exact ⟨d', hd', same_iff.1 hdd'⟩
  · intro d' hd'
    obtain ⟨d, hd, hdd'⟩ := h.all d' (h'.subtrees d' hd')
    exact ⟨d, hd, (same_iff.1 hdd').symm⟩

theorem Represents.sum_instructions_eq (h : Represents e ds) (h' : Represents e ds') :
    (ds.map instructions).sum = (ds'.map instructions).sum :=
  ((h.rearranged h').perm_map fun _ _ _ _ => instructions_alike).sum_nat

end Expr

open Symbolic.Expr

namespace Graph

variable {g g' g'' : Graph} {e : Expr} {es es' ds : List Expr} {k m n : Nat}

/-- Parts equal to `ds`, and no others, have places; their operands do, too. Each of `ds` has the
instructions of its node, and `k` more have been added. -/
structure Written (g : Graph) (ds : List Expr) (k : Nat) : Prop where
  known : ∀ d, (g.places.get? d).isSome = true ↔ ∃ r ∈ ds, Alike d r
  apart : ds.Pairwise fun d d' => d.same d' = false
  operands : ∀ r ∈ ds, ∀ d ∈ r.operands, ∃ r' ∈ ds, Alike d r'
  size : g.code.size = (ds.map instructions).sum + k

theorem written_empty : empty.Written [] 0 where
  known d := by simp [empty, Table.get?_empty]
  apart := .nil
  operands := List.forall_mem_nil _
  size := rfl

theorem Written.emit (h : g.Written ds k) (x : Instruction) : (g.emit x).2.Written ds (k + 1) where
  known := h.known
  apart := h.apart
  operands := h.operands
  size := (Array.size_push _).trans (congrArg (· + 1) h.size)

/-- A new part takes the instructions of its node from those that have been added. -/
theorem Written.note (h : g.Written ds (k + e.instructions)) (hnew : ∀ r ∈ ds, ¬ Alike e r)
    (hoperands : ∀ d ∈ e.operands, ∃ r ∈ ds, Alike d r) (i : Nat) :
    (g.note e i).Written (e :: ds) k where
  known d := by
    rw [Graph.note, Table.get?_insert, List.exists_mem_cons_iff, ← h.known d]
    by_cases hde : Alike d e
    · simp [show d.alike e = true from hde, hde]
    · simp [show ¬ d.alike e = true from hde, hde]
  apart := List.pairwise_cons.2
    ⟨fun r hr => Bool.not_eq_true _ ▸ fun hsame => hnew r hr (same_iff.1 hsame), h.apart⟩
  operands := by
    refine List.forall_mem_cons.2 ⟨fun d hd => ?_, fun r hr d hd => ?_⟩
    · obtain ⟨r, hr, hdr⟩ := hoperands d hd
      exact ⟨r, List.mem_cons_of_mem _ hr, hdr⟩
    · obtain ⟨r', hr', hdr⟩ := h.operands r hr d hd
      exact ⟨r', List.mem_cons_of_mem _ hr', hdr⟩
  size := by
    rw [List.map_cons, List.sum_cons]
    have := h.size
    simp only [Graph.note]
    omega

/-- From one graph to the other, `es` are written out: what is new are subtrees of them, and `m`
instructions that are of none of these. -/
def Adds (es : List Expr) (m : Nat) (g g' : Graph) : Prop :=
  ∀ ds k, g.Written ds k → ∃ new, g'.Written (new ++ ds) (k + m) ∧
    (∀ d ∈ new, ∃ e ∈ es, Subtree e d) ∧ ∀ e ∈ es, ∃ r ∈ new ++ ds, Alike e r

namespace Adds

theorem refl (g : Graph) : Adds [] 0 g g :=
  fun _ _ h => ⟨[], h, List.forall_mem_nil _, List.forall_mem_nil _⟩

theorem trans (h : Adds es m g g') (h' : Adds es' n g' g'') :
    Adds (es ++ es') (m + n) g g'' := by
  intro ds k hg
  obtain ⟨new, hg', hsub, hall⟩ := h ds k hg
  obtain ⟨new', hg'', hsub', hall'⟩ := h' _ _ hg'
  refine ⟨new' ++ new, ?_, List.forall_mem_append.2 ⟨fun d hd => ?_, fun d hd => ?_⟩,
    List.forall_mem_append.2 ⟨fun e he => ?_, fun e he => ?_⟩⟩
  · rwa [List.append_assoc, ← Nat.add_assoc]
  · obtain ⟨e, he, hed⟩ := hsub' d hd
    exact ⟨e, List.mem_append_right _ he, hed⟩
  · obtain ⟨e, he, hed⟩ := hsub d hd
    exact ⟨e, List.mem_append_left _ he, hed⟩
  · obtain ⟨r, hr, her⟩ := hall e he
    exact ⟨r, by rw [List.append_assoc]; exact List.mem_append_right _ hr, her⟩
  · rw [List.append_assoc]
    exact hall' e he

theorem emit (g : Graph) (x : Instruction) : Adds [] 1 g (g.emit x).2 :=
  fun _ _ h => ⟨[], h.emit x, List.forall_mem_nil _, List.forall_mem_nil _⟩

theorem builtin {f : Builtin} {is : List Nat} {i : Nat} (h : f.emit is g = .ok (i, g')) :
    Adds [] 1 g g' := by
  unfold Builtin.emit at h
  split at h
  · cases h
    exact emit g _
  · cases h
    exact emit g _
  · cases h

theorem known (h : (g.places.get? e).isSome = true) : Adds [e] 0 g g :=
  fun _ _ hg => ⟨[], hg, List.forall_mem_nil _, List.forall_mem_singleton.2 ((hg.known e).1 h)⟩

/-- A part that had no place still has none when its operands have been written out. -/
theorem note (h : Adds e.operands e.instructions g g') (hnew : g.places.get? e = none) (i : Nat) :
    Adds [e] 0 g (g'.note e i) := by
  intro ds k hg
  obtain ⟨new, hg', hsub, hall⟩ := h ds k hg
  have happart : ∀ r ∈ new ++ ds, ¬ Alike e r := by
    refine List.forall_mem_append.2 ⟨fun r hr her => ?_, fun r hr her => ?_⟩
    · -- what the operands have added is smaller
      obtain ⟨d, hd, hdr⟩ := hsub r hr
      have hlt := size_operand hd
      have hle := hdr.size_le
      have heq := size_alike her
      omega
    · have hknown := (hg.known e).2 ⟨r, hr, her⟩
      rw [hnew] at hknown
      cases hknown
  refine ⟨e :: new, hg'.note happart hall i, ?_, ?_⟩
  · refine List.forall_mem_cons.2 ⟨⟨e, List.mem_cons_self, .self⟩, fun d hd => ?_⟩
    obtain ⟨c, hc, hcd⟩ := hsub d hd
    exact ⟨e, List.mem_cons_self, Subtree.trans (.operand .self hc) hcd⟩
  · exact List.forall_mem_singleton.2 ⟨e, List.mem_cons_self, .refl e⟩

end Adds

/-- The parts that have places, if an expression alone has been written out. -/
theorem Adds.exists_represents (h : Adds [e] 0 empty g) :
    ∃ ds, Represents e ds ∧ g.code.size = (ds.map instructions).sum := by
  obtain ⟨ds, hg, hsub, hall⟩ := h [] 0 written_empty
  rw [List.append_nil] at hg hall
  refine ⟨ds, represents_of_operands (fun d hd => ?_) hg.apart ?_ fun r hr d hd => ?_, hg.size⟩
  · obtain ⟨_, he, hed⟩ := hsub d hd
    exact List.mem_singleton.1 he ▸ hed
  · obtain ⟨r, hr, her⟩ := hall e List.mem_cons_self
    exact ⟨r, hr, same_iff.2 her⟩
  · obtain ⟨r', hr', hdr⟩ := hg.operands r hr d hd
    exact ⟨r', hr', same_iff.2 hdr⟩

end Graph

open Symbolic.Graph

namespace Expr

variable {index : Symbol → Option Nat} {again : Expr → Graph → Except Error (Nat × Graph)}
  {e : Expr} {es : List Expr} {g g' : Graph}

/-- Wherever the expression is written out, that adds what is new of it. -/
def Shares (index : Symbol → Option Nat) (again : Expr → Graph → Except Error (Nat × Graph))
    (e : Expr) : Prop :=
  ∀ g i g', lowerWith index again e g = .ok (i, g') → Adds [e] 0 g g'

/-- What has no place is added as a node after its operands. -/
theorem shares_of_new (h : ∀ g i g', g.places.get? e = none →
    lowerWith index again e g = .ok (i, g') →
      ∃ g₁ j, Adds e.operands e.instructions g g₁ ∧ g' = g₁.note e j) : Shares index again e := by
  intro g i g' hlower
  cases hnew : g.places.get? e with
  | some j =>
    rw [lowerWith.eq_def, hnew] at hlower
    cases hlower
    exact .known (Option.isSome_iff_exists.2 ⟨i, hnew⟩)
  | none =>
    obtain ⟨g₁, j, hadds, rfl⟩ := h g i g' hnew hlower
    exact hadds.note hnew j

theorem adds_lowerRest (h : ∀ e ∈ es, Shares index again e) {f : BinaryOp} {a c : Nat}
    (hlower : lowerRest index again f a es g = .ok (c, g')) : Adds es es.length g g' := by
  induction es generalizing a g with
  | nil =>
    cases hlower
    exact .refl _
  | cons e es ih =>
    obtain ⟨he, hes⟩ := List.forall_mem_cons.1 h
    obtain ⟨⟨b, g₁⟩, hb, hlower⟩ := except_bind_eq_ok.1 hlower
    have hadds := (he g b g₁ hb).trans ((Adds.emit g₁ (.binary f a b)).trans (ih hes hlower))
    rwa [Nat.zero_add, Nat.add_comm] at hadds

theorem adds_lowerAll (h : ∀ e ∈ es, Shares index again e) {is : List Nat}
    (hlower : lowerAll index again es g = .ok (is, g')) : Adds es 0 g g' := by
  induction es generalizing g is with
  | nil =>
    cases hlower
    exact .refl _
  | cons e es ih =>
    obtain ⟨he, hes⟩ := List.forall_mem_cons.1 h
    obtain ⟨⟨i, g₁⟩, hi, hlower⟩ := except_bind_eq_ok.1 hlower
    obtain ⟨⟨is, g₂⟩, his, hlower⟩ := except_bind_eq_ok.1 hlower
    cases hlower
    exact (he g i g₁ hi).trans (ih hes his)

/-- The first operand is written out and the others are joined to it, for a node that is noted then. -/
theorem adds_joined {d : Expr} (h : ∀ e ∈ d :: es, Shares index again e) {f : BinaryOp} {i : Nat}
    (hlower : lowerWith index again d g >>= (fun p => lowerRest index again f p.1 es p.2 >>=
      fun p => .ok (p.1, p.2.note e p.1)) = .ok (i, g')) :
    ∃ g₁ j, Adds (d :: es) ((d :: es).length - 1) g g₁ ∧ g' = g₁.note e j := by
  obtain ⟨hd, hes⟩ := List.forall_mem_cons.1 h
  obtain ⟨⟨a, g₁⟩, ha, hlower⟩ := except_bind_eq_ok.1 hlower
  obtain ⟨⟨c, g₂⟩, hc, hlower⟩ := except_bind_eq_ok.1 hlower
  cases hlower
  have hadds := (hd g a g₁ ha).trans (adds_lowerRest hes hc)
  rw [Nat.zero_add] at hadds
  exact ⟨g₂, _, hadds, rfl⟩

/-- An expression whose calls are operations is written out as it stands; a sum or product has
operands. -/
theorem shares (hd : Direct e) (hc : Canonical e) : Shares index again e := by
  induction hd with
  | const c =>
    refine shares_of_new fun g i g' hnew hlower => ?_
    rw [lowerWith, hnew] at hlower
    cases hlower
    exact ⟨_, _, .emit g (.constant c), rfl⟩
  | var s k =>
    refine shares_of_new fun g i g' hnew hlower => ?_
    rw [lowerWith, hnew] at hlower
    cases hs : index s with
    | some j =>
      simp only [hs] at hlower
      cases hlower
      exact ⟨_, _, .emit g (.parameter j), rfl⟩
    | none =>
      simp only [hs] at hlower
      cases hlower
  | sum _ ih =>
    obtain ⟨d, d', ds, rfl⟩ := exists_cons_cons_of_two_le hc.sum_shape.two_le
    refine shares_of_new fun g i g' hnew hlower => ?_
    rw [lowerWith, hnew] at hlower
    exact adds_joined (fun e he => ih e he (hc.operands e he)) hlower
  | product _ ih =>
    obtain ⟨d, d', ds, rfl⟩ := exists_cons_cons_of_two_le hc.product_shape.two_le
    refine shares_of_new fun g i g' hnew hlower => ?_
    rw [lowerWith, hnew] at hlower
    exact adds_joined (fun e he => ih e he (hc.operands e he)) hlower
  | pow _ _ ihb ihp =>
    refine shares_of_new fun g i g' hnew hlower => ?_
    rw [lowerWith, hnew] at hlower
    obtain ⟨⟨i, g₁⟩, hb, hlower⟩ := except_bind_eq_ok.1 hlower
    obtain ⟨⟨j, g₂⟩, hp, hlower⟩ := except_bind_eq_ok.1 hlower
    cases hlower
    have hbase := ihb (hc.operands _ List.mem_cons_self) g i g₁ hb
    have hpower := ihp (hc.operands _ (List.mem_cons_of_mem _ List.mem_cons_self)) g₁ j g₂ hp
    exact ⟨_, _, hbase.trans (hpower.trans (.emit g₂ (.binary .power i j))), rfl⟩
  | apply f _ ih =>
    refine shares_of_new fun g i g' hnew hlower => ?_
    rw [lowerWith, hnew] at hlower
    obtain ⟨⟨a, g₁⟩, he, hlower⟩ := except_bind_eq_ok.1 hlower
    cases hlower
    have hadds := ih (hc.operands _ List.mem_cons_self) g a g₁ he
    exact ⟨_, _, hadds.trans (.emit g₁ (.unary f.operation a)), rfl⟩
  | @call f ps b es op hop _ ih =>
    refine shares_of_new fun g i g' hnew hlower => ?_
    rw [lowerWith, hnew] at hlower
    obtain ⟨p, hp, -⟩ := exists_builtin_of_operation hop
    simp only [hp] at hlower
    obtain ⟨⟨is, g₁⟩, hes, hlower⟩ := except_bind_eq_ok.1 hlower
    obtain ⟨⟨j, g₂⟩, hj, hlower⟩ := except_bind_eq_ok.1 hlower
    cases hlower
    have hadds := (adds_lowerAll (fun e he => ih e he (hc.operands e he)) hes).trans (.builtin hj)
    rw [List.append_nil, Nat.zero_add] at hadds
    exact ⟨_, _, hadds, rfl⟩

/-- As many classes of subtrees as there are, so much code. -/
theorem exists_represents_of_ofExpr (hd : Direct e) (hc : Canonical e) {c : GraphCode}
    (h : GraphCode.ofExpr index e = .ok c) :
    ∃ ds, Represents e ds ∧ c.code.length = (ds.map instructions).sum := by
  obtain ⟨i, g, hlower, rfl⟩ := GraphCode.ofExpr_eq_ok.1 h
  exact (shares hd hc empty i g hlower).exists_represents

end Expr

namespace CompileOptions

variable {e : Expr} {params : Option (List Symbol)} {c : Compiled}

/-- What is compiled to cells as it stands is graph code of the expression. -/
theorem exists_ofExpr_of_compile (h : compile ⟨params, 0, .heap⟩ e = .ok c) :
    ∃ index code, c.program = .heap code ∧ GraphCode.ofExpr index e = .ok code := by
  obtain ⟨p, hp, h⟩ := except_bind_eq_ok.1 h
  obtain ⟨code, hcode, hp⟩ := except_bind_eq_ok.1 hp
  cases hp
  cases h
  exact ⟨_, code, rfl, hcode⟩

/-- Compiled to cells as it stands, an expression that calls no functions but those defined from the
start has instructions that take earlier results; the last one puts out the result, and none takes
it. There are as many as the nodes of its distinct subtrees take: whatever subtrees stand for the
classes of equal ones, each class is written out once. -/
theorem compile_shares (he : Constructible e) (hs : Standard e)
    (h : compile ⟨params, 0, .heap⟩ e = .ok c) :
    ∃ code, c.program = .heap code ∧ Forward code.code ∧ code.output + 1 = code.code.length ∧
      Unread code.code code.output ∧ (∃ ds, Represents e ds) ∧
      ∀ ds, Represents e ds → code.code.length = (ds.map instructions).sum := by
  have hc := constructible_canonical he
  obtain ⟨index, code, hprogram, hcode⟩ := exists_ofExpr_of_compile h
  obtain ⟨hforward, hlast⟩ := GraphCode.ofExpr_ordered hcode
  obtain ⟨ds, hds, hlength⟩ := exists_represents_of_ofExpr (hs.direct hc) hc hcode
  refine ⟨code, hprogram, hforward, hlast, hforward.unread hlast, ⟨ds, hds⟩, fun ds' hds' => ?_⟩
  exact hlength.trans (hds.sum_instructions_eq hds')

def sineAndCosine : Expr :=
  applyOf .sin (ofName "x" * ofName "y") + Builtin.cos.on [ofName "x" * ofName "y"]

theorem sineAndCosine_eq : sineAndCosine =
    let d := product [ofName "x", ofName "y"]
    sum [apply .sin d, Builtin.cos.on [d]] := by
  decide +kernel

theorem represents_sineAndCosine :
    let d := product [ofName "x", ofName "y"]
    Represents sineAndCosine
      [sum [apply .sin d, Builtin.cos.on [d]], apply .sin d, Builtin.cos.on [d], d, ofName "x",
        ofName "y"] := by
  intro d
  rw [sineAndCosine_eq]
  have hsine : Subtree (sum [apply .sin d, Builtin.cos.on [d]]) (apply .sin d) :=
    .operand .self List.mem_cons_self
  have hd : Subtree (sum [apply .sin d, Builtin.cos.on [d]]) d :=
    .operand hsine List.mem_cons_self
  have hfactor {t : Expr} (ht : t ∈ d.operands) :
      Subtree (sum [apply .sin d, Builtin.cos.on [d]]) t :=
    .operand hd ht
  refine represents_of_operands ?_ (by decide +kernel) (by decide +kernel) (by decide +kernel)
  simp only [List.forall_mem_cons]
  exact ⟨.self, hsine, .operand .self (List.mem_cons_of_mem _ List.mem_cons_self), hd,
    hfactor List.mem_cons_self, hfactor (List.mem_cons_of_mem _ List.mem_cons_self),
    List.forall_mem_nil _⟩

/-- The product and its factors are written out once, six instructions in all. -/
theorem compile_shares_sineAndCosine :
    ∃ c code, compile ⟨none, 0, .heap⟩ sineAndCosine = .ok c ∧ c.program = .heap code ∧
      code.code.length = 6 := by
  have hx : Constructible (ofName "x") := .var _ _
  have hy : Constructible (ofName "y") := .var _ _
  have hxy : Constructible (ofName "x" * ofName "y") := .product (Closed.forall_pair hx hy)
  have hcos : Constructible (Builtin.cos.on [ofName "x" * ofName "y"]) :=
    .callOf rfl (closed_constructible.builtin .cos) (List.forall_mem_singleton.2 hxy)
  have he : Constructible sineAndCosine := .sum (Closed.forall_pair (.apply .sin hxy) hcos)
  have hstandard : Standard (product [ofName "x", ofName "y"]) :=
    .product (Closed.forall_pair (.var _ _) (.var _ _))
  have hs : Standard sineAndCosine := by
    rw [sineAndCosine_eq]
    refine .sum (Closed.forall_pair (.apply .sin hstandard) (.call (by decide +kernel) ?_))
    exact List.forall_mem_singleton.2 hstandard
  have hok : (compile ⟨none, 0, .heap⟩ sineAndCosine).toOption.isSome = true := by decide +kernel
  cases hc : compile ⟨none, 0, .heap⟩ sineAndCosine with
  | error err =>
    rw [hc] at hok
    cases hok
  | ok c =>
    obtain ⟨code, hprogram, -, -, -, -, hlength⟩ := compile_shares he hs hc
    exact ⟨c, code, rfl, hprogram, hlength _ represents_sineAndCosine⟩

end CompileOptions

end Symbolic
