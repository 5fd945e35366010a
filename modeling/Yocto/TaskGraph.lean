-- Finite task graphs: a list of tasks, what each one depends on, and the same edges the other
-- way.
import Mathlib.Data.List.Chain
import Mathlib.Order.WellFoundedSet
import Mathlib.Tactic

namespace yocto.task_graph

/-! Small graphs have numbers for tasks. -/

instance two_tasks : NeZero 2 := ⟨by decide⟩
instance three_tasks : NeZero 3 := ⟨by decide⟩

variable {Tid : Type}

/-- `runtaskentries`, with the dependencies of each task and those that depend on it. -/
structure TaskGraph (Tid : Type) where
  runtaskentries : List Tid
  depends : Tid → List Tid
  revdeps : Tid → List Tid
  closed : ∀ {t d}, d ∈ depends t → t ∈ runtaskentries ∧ d ∈ runtaskentries
  matching : ∀ {t d}, t ∈ revdeps d ↔ d ∈ depends t

/-- `a` depends on `b`. -/
def TaskGraph.Dep (g : TaskGraph Tid) (a b : Tid) : Prop := b ∈ g.depends a

def TaskGraph.Acyclic (g : TaskGraph Tid) : Prop := ∀ t, ¬ Relation.TransGen g.Dep t t

variable {g : TaskGraph Tid}

theorem length_le_of_chain {r : Tid → Tid → Prop} (hr : ∀ t, ¬ Relation.TransGen r t t)
    {chain l : List Tid} (hchain : chain.IsChain r) (hmem : ∀ t ∈ chain, t ∈ l) :
    chain.length ≤ l.length := by
  have hpair : chain.Pairwise (Relation.TransGen r) := by
    apply List.IsChain.pairwise
    exact hchain.imp fun _ _ h => Relation.TransGen.single h
  have hnodup : chain.Nodup := by
    apply hpair.imp
    intro a b hab heq
    exact hr b (heq ▸ hab)
  exact (hnodup.subperm hmem).length_le

theorem TaskGraph.Acyclic.length_le (h : g.Acyclic) {chain : List Tid}
    (hchain : chain.IsChain fun a b => g.Dep b a) (hmem : ∀ t ∈ chain, t ∈ g.runtaskentries) :
    chain.length ≤ g.runtaskentries.length := by
  apply length_le_of_chain ?_ hchain hmem
  intro t ht
  exact h t (Relation.transGen_swap.mp ht)

theorem acyclic_of_lt (f : Tid → Nat) (hf : ∀ a b, g.Dep a b → f a < f b) : g.Acyclic := by
  have hlt : ∀ a b, Relation.TransGen g.Dep a b → f a < f b := by
    intro a b h
    induction h with
    | single h => exact hf _ _ h
    | tail _ h ih => exact ih.trans (hf _ _ h)
  intro t ht
  exact lt_irrefl _ (hlt t t ht)

theorem TaskGraph.Acyclic.irrefl (h : g.Acyclic) (t : Tid) : ¬ g.Dep t t :=
  fun ht => h t (.single ht)

theorem TaskGraph.Acyclic.wf (h : g.Acyclic) : WellFounded g.Dep := by
  have hstrict : IsStrictOrder Tid (Relation.TransGen g.Dep) :=
    { irrefl := h, trans := fun _ _ _ => Relation.TransGen.trans }
  have hwf := (Set.wellFoundedOn_iff.mp
    (List.finite_toSet g.runtaskentries).wellFoundedOn : WellFounded fun a b =>
      Relation.TransGen g.Dep a b ∧ a ∈ {t | t ∈ g.runtaskentries} ∧ b ∈ {t | t ∈ g.runtaskentries})
  refine Subrelation.wf (fun {a b} hab => ?_) hwf
  exact ⟨.single hab, g.closed hab⟩

theorem TaskGraph.Acyclic.wf_swap (h : g.Acyclic) : WellFounded fun a b => g.Dep b a := by
  have hstrict : IsStrictOrder Tid (Relation.TransGen fun a b => g.Dep b a) :=
    { irrefl := fun t ht => h t (Relation.transGen_swap.mp ht), trans := fun _ _ _ => Relation.TransGen.trans }
  have hwf := (Set.wellFoundedOn_iff.mp
    (List.finite_toSet g.runtaskentries).wellFoundedOn : WellFounded fun a b =>
      Relation.TransGen (fun a b => g.Dep b a) a b ∧ a ∈ {t | t ∈ g.runtaskentries} ∧
        b ∈ {t | t ∈ g.runtaskentries})
  refine Subrelation.wf (fun {a b} hab => ?_) hwf
  exact ⟨.single hab, (g.closed hab).symm⟩

end yocto.task_graph
