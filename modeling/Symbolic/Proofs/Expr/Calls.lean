import Symbolic.Expr.Builtin
import Symbolic.Expr.Measure
import Symbolic.Proofs.Expr.Alike
import Symbolic.Proofs.Expr.Order

/-!
The functions that are called. `calls` lists those that an expression itself calls, `Uses` goes on
through their bodies. Equal expressions call equal functions (`calls_alike`). The order of expressions
looks at the names of functions alone: what ties in it is equal if functions of one name are equal
(`alike_of_order_eq`).

The collector `functions` goes by names, too. What it finds is said by `Collects`, for any functions
found before: every name that is called is found, and so is every name that is called in the body of
a function that is found.
-/

namespace Symbolic

open Symbolic.Expr

namespace Definition

variable {f g h : Definition}

theorem same_iff :
    f.same g = true ↔ f.name = g.name ∧ f.params = g.params ∧ Alike f.body g.body := by
  rw [same_eq, Bool.and_eq_true, Bool.and_eq_true, beq_iff_eq, beq_iff_eq, and_assoc, Alike]

theorem same_refl (f : Definition) : f.same f = true := same_iff.2 ⟨rfl, rfl, .refl _⟩

theorem same_symm (hfg : f.same g = true) : g.same f = true := by
  obtain ⟨hn, hp, hb⟩ := same_iff.1 hfg
  exact same_iff.2 ⟨hn.symm, hp.symm, hb.symm⟩

theorem same_trans (hfg : f.same g = true) (hgh : g.same h = true) : f.same h = true := by
  obtain ⟨hn, hp, hb⟩ := same_iff.1 hfg
  obtain ⟨hn', hp', hb'⟩ := same_iff.1 hgh
  exact same_iff.2 ⟨hn.trans hn', hp.trans hp', hb.trans hb'⟩

theorem same_eq_false_of_name (hn : f.name ≠ g.name) : f.same g = false :=
  Bool.not_eq_true _ ▸ fun hfg => hn (same_iff.1 hfg).1

end Definition

namespace Expr

mutual

/-- The functions that are called, from left to right, each as often as it is called; those that
only bodies call do not count. -/
def calls : Expr → List Definition
  | const _ | var _ _ => []
  | sum es => callsAll es
  | product es => callsAll es
  | pow b p => calls b ++ calls p
  | apply _ e => calls e
  | call f ps b es => ⟨f, ps, b⟩ :: callsAll es

def callsAll : List Expr → List Definition
  | [] => []
  | e :: es => calls e ++ callsAll es

end

variable {f g : Definition} {a b : Expr} {es : List Expr}

theorem mem_callsAll : f ∈ callsAll es ↔ ∃ e ∈ es, f ∈ calls e := by
  induction es with
  | nil => simp [callsAll]
  | cons e es ih => rw [callsAll, List.mem_append, ih, List.exists_mem_cons_iff]

theorem forall_calls {P : Expr → Prop} (hP : ∀ e, P e → ∀ d ∈ e.operands, P d) {e : Expr}
    (he : P e) : ∀ f ∈ e.calls, ∃ es, P (f.on es) := by
  have hlist {es : List Expr} (ih : ∀ e ∈ es, P e → ∀ f ∈ e.calls, ∃ es, P (f.on es))
      (hes : ∀ e ∈ es, P e) : ∀ f ∈ callsAll es, ∃ es, P (f.on es) := by
    intro f hf
    obtain ⟨e, hmem, hf⟩ := mem_callsAll.1 hf
    exact ih e hmem (hes e hmem) f hf
  induction e with
  | const c => exact List.forall_mem_nil _
  | var s k => exact List.forall_mem_nil _
  | sum es ih => exact hlist ih (hP _ he)
  | product es ih => exact hlist ih (hP _ he)
  | pow b p ihb ihp =>
    have hd := hP _ he
    exact List.forall_mem_append.2
      ⟨ihb (hd b List.mem_cons_self), ihp (hd p (List.mem_cons_of_mem _ List.mem_cons_self))⟩
  | apply f e ih => exact ih (hP _ he e List.mem_cons_self)
  | call n ps b es _ ih => exact List.forall_mem_cons.2 ⟨⟨es, he⟩, hlist ih (hP _ he)⟩

theorem calls_alike (h : Alike a b) : ∀ f ∈ a.calls, ∃ g ∈ b.calls, f.same g = true := by
  have hlist {as bs : List Expr} (h : Rearranged Alike as bs)
      (ih : ∀ a ∈ as, ∀ {b}, Alike a b → ∀ f ∈ a.calls, ∃ g ∈ b.calls, f.same g = true) :
      ∀ f ∈ callsAll as, ∃ g ∈ callsAll bs, f.same g = true := by
    intro f hf
    obtain ⟨a, ha, hf⟩ := mem_callsAll.1 hf
    obtain ⟨b, hb, hab⟩ := h.exists_left a ha
    obtain ⟨g, hg, hfg⟩ := ih a ha hab f hf
    exact ⟨g, mem_callsAll.2 ⟨b, hb, hg⟩, hfg⟩
  induction a generalizing b with
  | const c => exact List.forall_mem_nil _
  | var s k => exact List.forall_mem_nil _
  | sum as ih =>
    obtain ⟨bs, rfl, hbs⟩ := h.eq_sum
    exact hlist hbs ih
  | product as ih =>
    obtain ⟨bs, rfl, hbs⟩ := h.eq_product
    exact hlist hbs ih
  | pow x p ihx ihp =>
    obtain ⟨x', p', rfl, hx, hp⟩ := h.eq_pow
    refine List.forall_mem_append.2 ⟨fun f hf => ?_, fun f hf => ?_⟩
    · obtain ⟨g, hg, hfg⟩ := ihx hx f hf
      exact ⟨g, List.mem_append_left _ hg, hfg⟩
    · obtain ⟨g, hg, hfg⟩ := ihp hp f hf
      exact ⟨g, List.mem_append_right _ hg, hfg⟩
  | apply _ a ih =>
    obtain ⟨b, rfl, hab⟩ := h.eq_apply
    have hcalls := ih hab
    exact hcalls
  | call n ps d as _ ih =>
    obtain ⟨d', bs, rfl, hd, has⟩ := h.eq_call
    refine List.forall_mem_cons.2 ⟨⟨_, List.mem_cons_self, ?_⟩, fun f hf => ?_⟩
    · exact Definition.same_iff.2 ⟨rfl, rfl, hd⟩
    · obtain ⟨g, hg, hfg⟩ := hlist (.of_forall₂ has) ih f hf
      exact ⟨g, List.mem_cons_of_mem _ hg, hfg⟩

/-- What ties in the order is equal, if the functions of one name that the two call are. -/
theorem alike_of_order_eq (h : order a b = .eq)
    (hcalls : ∀ f ∈ a.calls, ∀ g ∈ b.calls, f.name = g.name → f.same g = true) : Alike a b := by
  have hlist {as bs : List Expr}
      (h : List.Forall₂ (fun a b => (∀ f ∈ a.calls, ∀ g ∈ b.calls, f.name = g.name →
        f.same g = true) → Alike a b) as bs)
      (hcalls : ∀ f ∈ callsAll as, ∀ g ∈ callsAll bs, f.name = g.name → f.same g = true) :
      List.Forall₂ Alike as bs :=
    forall₂_imp_of_mem h fun a ha b hb hab => hab fun f hf g hg =>
      hcalls f (mem_callsAll.2 ⟨a, ha, hf⟩) g (mem_callsAll.2 ⟨b, hb, hg⟩)
  refine order_eq_induction (motive := fun a b => (∀ f ∈ a.calls, ∀ g ∈ b.calls, f.name = g.name →
    f.same g = true) → Alike a b) ?const ?var ?sum ?product ?pow ?apply ?call a b h hcalls
  case const => exact fun c _ => .refl _
  case var => exact fun s k l _ => alike_refl (Expr.var s k)
  case sum => exact fun as bs h hcalls => alike_sum.2 (.of_forall₂ (hlist h hcalls))
  case product => exact fun as bs h hcalls => alike_product.2 (.of_forall₂ (hlist h hcalls))
  case pow =>
    intro x p y q hx hp hcalls
    refine alike_pow.2 ⟨hx fun f hf g hg => ?_, hp fun f hf g hg => ?_⟩
    · exact hcalls f (List.mem_append_left _ hf) g (List.mem_append_left _ hg)
    · exact hcalls f (List.mem_append_right _ hf) g (List.mem_append_right _ hg)
  case apply => exact fun f a b hab hcalls => alike_apply.2 ⟨rfl, hab hcalls⟩
  case call =>
    intro n ps qs d d' as bs h hcalls
    have hdef : Definition.same ⟨n, ps, d⟩ ⟨n, qs, d'⟩ = true :=
      hcalls _ List.mem_cons_self _ List.mem_cons_self rfl
    obtain ⟨-, hps, hd⟩ := Definition.same_iff.1 hdef
    refine alike_call.2 ⟨rfl, hps, hd, hlist h fun f hf g hg => ?_⟩
    exact hcalls f (List.mem_cons_of_mem _ hf) g (List.mem_cons_of_mem _ hg)

/-! Functions of functions. -/

/-- The functions of a list, those that their bodies call, and so on. -/
inductive Reached (fs : List Definition) : Definition → Prop where
  | root {f : Definition} : f ∈ fs → Reached fs f
  | inner {f g : Definition} : Reached fs f → g ∈ f.body.calls → Reached fs g

theorem Reached.mono {fs gs : List Definition} (h : Reached fs f) (hsub : fs ⊆ gs) :
    Reached gs f := by
  induction h with
  | root hf => exact .root (hsub hf)
  | inner _ hg ih => exact .inner ih hg

/-- What is reached from the body of a function is reached from it. -/
theorem Reached.of_body (h : Reached f.body.calls g) : Reached [f] g := by
  induction h with
  | root hg => exact .inner (.root List.mem_cons_self) hg
  | inner _ hg ih => exact .inner ih hg

/-- The function is called in the expression, or in the body of one that the expression uses. -/
def Uses (e : Expr) (f : Definition) : Prop := Reached e.calls f

/-- What the collector makes of the functions `seen` for the functions `fs`: it loses none, finds
each name that is called, and what it adds is reached and calls only names that are found. -/
structure Collects (seen found fs : List Definition) : Prop where
  kept : seen ⊆ found
  called : ∀ f ∈ fs, f.name ∈ found.map (·.name)
  added : ∀ g ∈ found, g ∈ seen ∨
    Reached fs g ∧ ∀ f ∈ g.body.calls, f.name ∈ found.map (·.name)
  distinct : (seen.map (·.name)).Nodup → (found.map (·.name)).Nodup

namespace Collects

variable {seen found later fs gs : List Definition}

theorem nil (seen : List Definition) : Collects seen seen [] where
  kept := List.Subset.refl _
  called := List.forall_mem_nil _
  added _ := .inl
  distinct := id

theorem append (h : Collects seen found fs) (h' : Collects found later gs) :
    Collects seen later (fs ++ gs) where
  kept := List.Subset.trans h.kept h'.kept
  called := List.forall_mem_append.2 ⟨fun f hf => List.map_subset _ h'.kept (h.called f hf), h'.called⟩
  added g hg := by
    rcases h'.added g hg with hg | ⟨hreach, hbody⟩
    · refine (h.added g hg).imp_right fun ⟨hreach, hbody⟩ => ⟨?_, fun f hf => ?_⟩
      · exact hreach.mono (List.subset_append_left _ _)
      · exact List.map_subset _ h'.kept (hbody f hf)
    · exact .inr ⟨hreach.mono (List.subset_append_right _ _), hbody⟩
  distinct hn := h'.distinct (h.distinct hn)

theorem known (h : f.name ∈ seen.map (·.name)) : Collects seen seen [f] where
  kept := List.Subset.refl _
  called := List.forall_mem_singleton.2 h
  added _ := .inl
  distinct := id

/-- A function of a new name is found, and then what its body calls. -/
theorem new (hf : f.name ∉ seen.map (·.name)) (h : Collects (seen ++ [f]) found f.body.calls) :
    Collects seen found [f] where
  kept := List.Subset.trans (List.subset_append_left _ _) h.kept
  called := List.forall_mem_singleton.2
    (List.mem_map_of_mem (h.kept (List.mem_append_right _ List.mem_cons_self)))
  added g hg := by
    rcases h.added g hg with hg | ⟨hreach, hbody⟩
    · refine (List.mem_append.1 hg).imp_right fun hg => ?_
      rw [List.mem_singleton.1 hg]
      exact ⟨.root List.mem_cons_self, h.called⟩
    · exact .inr ⟨hreach.of_body, hbody⟩
  distinct hn := by
    refine h.distinct ?_
    rw [List.map_append, List.map_singleton]
    refine List.nodup_append.2 ⟨hn, List.nodup_singleton _, fun x hx y hy hxy => hf ?_⟩
    rwa [← List.mem_singleton.1 hy, ← hxy]

end Collects

theorem collects_addFunctions (e : Expr) (seen : List Definition) :
    Collects seen (addFunctions seen e) e.calls := by
  have hlist {es : List Expr}
      (ih : ∀ e ∈ es, ∀ seen, Collects seen (addFunctions seen e) e.calls) (seen) :
      Collects seen (addFunctionsAll seen es) (callsAll es) := by
    induction es generalizing seen with
    | nil => exact .nil seen
    | cons e es iht =>
      obtain ⟨ihe, ihes⟩ := List.forall_mem_cons.1 ih
      exact (ihe seen).append (iht ihes _)
  induction e generalizing seen with
  | const c => exact .nil seen
  | var s k => exact .nil seen
  | sum es ih => exact hlist ih seen
  | product es ih => exact hlist ih seen
  | pow b p ihb ihp => exact (ihb seen).append (ihp _)
  | apply f e ih => exact ih seen
  | call n ps b es ihb ih =>
    have hname : seen.any (·.name == n) = true ↔ n ∈ seen.map (·.name) := by
      simp
    rw [addFunctions, calls, ← List.singleton_append]
    split
    · next hn => exact (Collects.known (hname.1 hn)).append (hlist ih seen)
    · next hn => exact (Collects.new (fun h => hn (hname.2 h)) (ihb _)).append (hlist ih _)

/-- Whatever functions of one name the expression uses are the same. -/
def OnePerName (e : Expr) : Prop :=
  ∀ f g, Uses e f → Uses e g → f.name = g.name → f.same g = true

variable {e : Expr}

theorem collects_functions (e : Expr) : Collects [] e.functions e.calls :=
  collects_addFunctions e []

theorem uses_of_mem_functions (hf : f ∈ e.functions) : Uses e f :=
  (((collects_functions e).added f hf).resolve_left List.not_mem_nil).1

theorem nodup_names_functions (e : Expr) : (e.functions.map (·.name)).Nodup :=
  (collects_functions e).distinct .nil

/-- Where a name stands for one function, all that are used are found. -/
theorem OnePerName.exists_mem_functions (h : OnePerName e) (hf : Uses e f) :
    ∃ g ∈ e.functions, f.same g = true := by
  have hfound {f : Definition} (hf : Uses e f) (hname : f.name ∈ e.functions.map (·.name)) :
      ∃ g ∈ e.functions, f.same g = true := by
    obtain ⟨g, hg, hn⟩ := List.mem_map.1 hname
    exact ⟨g, hg, h f g hf (uses_of_mem_functions hg) hn.symm⟩
  have hcollects := collects_functions e
  induction hf with
  | root hf => exact hfound (.root hf) (hcollects.called _ hf)
  | @inner f g hf hg ih =>
    -- the body of the function that was found calls a function of the same name
    obtain ⟨f', hf', hff'⟩ := ih
    obtain ⟨g', hg', hgg'⟩ := calls_alike (Definition.same_iff.1 hff').2.2 g hg
    obtain ⟨-, hbody⟩ := (hcollects.added f' hf').resolve_left List.not_mem_nil
    refine hfound (.inner hf hg) ?_
    rw [(Definition.same_iff.1 hgg').1]
    exact hbody g' hg'

end Expr

end Symbolic
