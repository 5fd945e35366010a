-- The tasks with `recrdeptask` (runqueue.py, part B of the recursive dependencies).
import Yocto.RunTaskEntries
import Yocto.Saturation
import Yocto.TaskGraph

open yocto.task_ids yocto.ordered_dict yocto.task_graph yocto.frontier yocto.run_task_entries yocto.saturation

namespace yocto.recursive_depends

/-! ## The chains -/

/-- The temp lists of the walk along the chains. -/
structure Chains where
  deps : Text → Finset Text
  cumulativedeps : Text → Finset Text

/-- `dep` depends on `tid`, which is complete. -/
def collate (tid : Text) (acc : Chains × Finset Text) (dep : Text) : Chains × Finset Text :=
  let deps := Function.update acc.1.deps dep ((acc.1.deps dep).erase tid)
  let cumulativedeps := Function.update acc.1.cumulativedeps dep
    (insert (fn_from_tid tid) (acc.1.cumulativedeps dep) ∪ acc.1.cumulativedeps tid)
  (⟨deps, cumulativedeps⟩, if deps dep = ∅ then insert dep acc.2 else acc.2)

/-- Iterate the chains collating dependencies; none when it has not ended after `turns`. -/
def walk (it : Iteration Text) (g : TaskGraph Text) : Nat → Chains → Finset Text → Option Chains
  | 0, _, _ => none
  | turns + 1, chains, endpoints =>
    if endpoints = ∅ then some chains
    else
      let next := (it.order (turns + 1) endpoints).foldl
        (fun acc tid => (g.revdeps tid).foldl (collate tid) acc) (chains, ∅)
      walk it g turns next.1 next.2

/-- `cumulativedeps`: the recipes of all that a task needs. -/
def cumulative (it : Iteration Text) (turns : Nat) (g : TaskGraph Text) : Option (Text → Finset Text) :=
  let deps := fun tid => (g.depends tid).toFinset
  (walk it g turns ⟨deps, fun _ => ∅⟩ (g.runtaskentries.toFinset.filter fun tid => deps tid = ∅)).map
    Chains.cumulativedeps

/-! ## The loop -/

/-- The tasks with `recrdeptask` and its names, and the names of `recideptask`, over the dependencies that
part A has resolved. -/
structure RecursiveTasks where
  graph : TaskGraph Text
  acyclic : graph.Acyclic
  colon : ∀ tid ∈ graph.runtaskentries, ':' ∈ tid
  recursivetasks : OrderedDict Text (List TaskName)
  tasks : ∀ x ∈ recursivetasks, x.1 ∈ graph.runtaskentries
  nodup : (recursivetasks.map Prod.fst).Nodup
  recideptask : OrderedDict Text (List TaskName)

variable (d : RecursiveTasks)

def RecursiveTasks.entries : Finset Text := d.graph.runtaskentries.toFinset

/-- `recursiveitasks[tid]`, empty when there is none. -/
def recursiveitasks (tid : Text) : Finset Text :=
  (((d.recideptask.get? tid).getD []).map fun t => tid_of (fn_from_tid tid) t.1).toFinset

def recursivetasksselfref : Finset Text :=
  ((d.recursivetasks.filter fun x => taskname_from_tid x.1 ∈ x.2.map Subtype.val).map Prod.fst).toFinset

/-- What counts as the dependencies of a recursive task. -/
def totaldeps (depends : Text → Finset Text) (tid : Text) : Finset Text :=
  depends tid ∪ recursiveitasks d tid ∪ ((recursiveitasks d tid).filter (· ∈ d.entries)).biUnion depends

/-- The tasks of the given names in the recipes that the dependencies need. -/
def recipe_tasks (cumulativedeps depends : Text → Finset Text) (tid : Text) (tasknames : List TaskName) :
    Finset Text :=
  let deps := ((totaldeps d depends tid).filter (· ∈ d.entries)).biUnion cumulativedeps
  (tasknames.toFinset.biUnion fun taskname => deps.image fun t => tid_of t taskname.1).filter fun newtid =>
    newtid ≠ tid ∧ newtid ∈ d.entries

/-- `newtid.endswith(":" + taskname)`. -/
def ends_with (newtid : Text) (taskname : TaskName) : Bool := decide ((':' :: taskname.1) <:+ newtid)

/-- What the recursive tasks among the dependencies of a task depend on and the task does not. -/
def other_deps (depends : Text → Finset Text) (tid : Text) : Finset Text :=
  ((depends tid).filter (· ∈ d.recursivetasks.map Prod.fst)).biUnion fun dep => depends dep \ depends tid

/-- One recursive task: its dependencies are added, and counted. -/
def resolve_task (cumulativedeps : Text → Finset Text) (acc : (Text → Finset Text) × Nat)
    (x : Text × List TaskName) : (Text → Finset Text) × Nat :=
  let tid := x.1
  let new := recipe_tasks d cumulativedeps acc.1 tid x.2 \ acc.1 tid
  let depends := Function.update acc.1 tid (acc.1 tid ∪ new)
  let deps := (other_deps d depends tid).filter (· ∈ d.entries)
  let count := ∑ newtid ∈ deps, x.2.countP (ends_with newtid)
  (Function.update depends tid (depends tid ∪ deps.filter fun newtid => x.2.any (ends_with newtid)),
    acc.2 + new.card + count)

/-- The loop, with the recursive tasks in some order. -/
def resolve (cumulativedeps : Text → Finset Text) (order : List (Text × List TaskName)) :
    Nat → (Text → Finset Text) → Option (Text → Finset Text)
  | 0, _ => none
  | turns + 1, depends =>
    let next := order.foldl (resolve_task d cumulativedeps) (depends, 0)
    if next.2 = 0 then some next.1 else resolve cumulativedeps order turns next.1

/-- Remove recrdeptask circular references. -/
def clean_up (depends : Text → Finset Text) : Text → Finset Text :=
  fun tid => if tid ∈ recursivetasksselfref d then depends tid \ recursivetasksselfref d else depends tid

/-- Part B: the dependencies after the loop. -/
def recursive_dependencies (it : Iteration Text) (turns : Nat) (order : List (Text × List TaskName)) :
    Option (Text → Finset Text) := do
  let cumulativedeps ← cumulative it turns d.graph
  resolve d cumulativedeps order turns fun tid => (d.graph.depends tid).toFinset

/-! ## The chains are walked to their ends -/

section
variable {g : TaskGraph Text}

/-- Within a round, in which the tasks of `complete` are done and the edges of `handled` collated. -/
structure Collated (g : TaskGraph Text) (complete : Finset Text) (handled : List (Text × Text))
    (acc : Chains × Finset Text) : Prop where
  deps : ∀ t x, x ∈ acc.1.deps t ↔ g.Dep t x ∧ x ∉ complete ∧ (x, t) ∉ handled
  recipes : ∀ t f, f ∈ acc.1.cumulativedeps t ↔ ∃ x, (x ∈ complete ∨ (x, t) ∈ handled) ∧ g.Dep t x ∧
    ∃ y, Relation.ReflTransGen g.Dep x y ∧ f = fn_from_tid y
  next : ∀ t, t ∈ acc.2 ↔ acc.1.deps t = ∅ ∧ ∃ x, (x, t) ∈ handled

theorem Collated.step {complete : Finset Text} {handled : List (Text × Text)} {acc : Chains × Finset Text}
    (h : Collated g complete handled acc) {tid dep : Text} (hdep : g.Dep dep tid)
    (hready : ∀ x, g.Dep tid x → x ∈ complete) :
    Collated g complete ((tid, dep) :: handled) (collate tid acc dep) := by
  have hother : ∀ t, t ≠ dep → ∀ x, ((x, t) ∈ (tid, dep) :: handled ↔ (x, t) ∈ handled) := by
    intro t ht x
    simp [ht]
  have hself : ∀ x, ((x, dep) ∈ (tid, dep) :: handled ↔ x = tid ∨ (x, dep) ∈ handled) := by
    intro x
    simp
  have hhanded : ∀ f, f ∈ insert (fn_from_tid tid) (acc.1.cumulativedeps dep) ∪ acc.1.cumulativedeps tid ↔
      f ∈ acc.1.cumulativedeps dep ∨ ∃ y, Relation.ReflTransGen g.Dep tid y ∧ f = fn_from_tid y := by
    intro f
    rw [Finset.mem_union, Finset.mem_insert, h.recipes tid]
    constructor
    · rintro ((rfl | hf) | ⟨x, _, hx, y, hy, rfl⟩)
      · exact Or.inr ⟨tid, .refl, rfl⟩
      · exact Or.inl hf
      · exact Or.inr ⟨y, .head hx hy, rfl⟩
    · rintro (hf | ⟨y, hy, rfl⟩)
      · exact Or.inl (Or.inr hf)
      · rcases Relation.ReflTransGen.cases_head hy with rfl | ⟨x, hx, hy⟩
        · exact Or.inl (Or.inl rfl)
        · exact Or.inr ⟨x, Or.inl (hready x hx), hx, y, hy, rfl⟩
  have hdeps : ∀ t x, x ∈ (collate tid acc dep).1.deps t ↔
      g.Dep t x ∧ x ∉ complete ∧ (x, t) ∉ (tid, dep) :: handled := by
    intro t x
    unfold collate
    dsimp only
    by_cases ht : t = dep
    · subst ht
      rw [Function.update_self, Finset.mem_erase, h.deps, hself]
      tauto
    · rw [Function.update_of_ne ht, h.deps, hother t ht]
  refine ⟨hdeps, fun t f => ?_, fun t => ?_⟩
  · unfold collate
    dsimp only
    by_cases ht : t = dep
    · subst ht
      rw [Function.update_self, hhanded, h.recipes]
      simp only [hself]
      constructor
      · rintro (⟨x, hx, hrest⟩ | hy)
        · exact ⟨x, by tauto, hrest⟩
        · exact ⟨tid, Or.inr (Or.inl rfl), hdep, hy⟩
      · rintro ⟨x, hx | rfl | hx, hrest⟩
        · exact Or.inl ⟨x, Or.inl hx, hrest⟩
        · exact Or.inr hrest.2
        · exact Or.inl ⟨x, Or.inr hx, hrest⟩
    · rw [Function.update_of_ne ht, h.recipes]
      simp only [hother t ht]
  · by_cases ht : t = dep
    · subst ht
      have hnext : t ∈ (collate tid acc t).2 ↔ (collate tid acc t).1.deps t = ∅ := by
        unfold collate
        dsimp only
        split
        · rename_i hempty
          rw [Function.update_self] at hempty
          simp [hempty]
        · rename_i hne
          rw [h.next]
          refine ⟨fun hnext => absurd ?_ hne, fun hempty => absurd hempty hne⟩
          rw [Function.update_self, hnext.1]
          rfl
      rw [hnext]
      exact ⟨fun hempty => ⟨hempty, tid, List.mem_cons_self⟩, fun hempty => hempty.1⟩
    · have hsame : (collate tid acc dep).1.deps t = acc.1.deps t := Function.update_of_ne ht _ _
      have hnext : t ∈ (collate tid acc dep).2 ↔ t ∈ acc.2 := by
        unfold collate
        dsimp only
        split
        · simp [ht]
        · exact Iff.rfl
      rw [hnext, h.next, hsame]
      simp only [hother t ht]

theorem Collated.fold {complete : Finset Text} (edges : List (Text × Text)) {handled : List (Text × Text)}
    {acc : Chains × Finset Text} (h : Collated g complete handled acc)
    (hedges : ∀ e ∈ edges, g.Dep e.2 e.1 ∧ ∀ x, g.Dep e.1 x → x ∈ complete) :
    Collated g complete (edges.reverse ++ handled)
      (edges.foldl (fun acc e => collate e.1 acc e.2) acc) := by
  induction edges generalizing handled acc with
  | nil => exact h
  | cons e edges ih =>
    have hfirst := hedges e List.mem_cons_self
    have hrest := ih (h.step hfirst.1 hfirst.2) fun e' he' => hedges e' (List.mem_cons_of_mem _ he')
    rw [List.reverse_cons, List.append_assoc]
    exact hrest

/-- Between two rounds: the end points are the tasks whose dependencies are complete. -/
structure Ends (g : TaskGraph Text) (complete endpoints : Finset Text) (chains : Chains) : Prop where
  deps : ∀ t x, x ∈ chains.deps t ↔ g.Dep t x ∧ x ∉ complete
  recipes : ∀ t f, f ∈ chains.cumulativedeps t ↔ ∃ x ∈ complete, g.Dep t x ∧
    ∃ y, Relation.ReflTransGen g.Dep x y ∧ f = fn_from_tid y
  ends : ∀ t, t ∈ endpoints ↔ t ∈ g.runtaskentries ∧ t ∉ complete ∧ ∀ x, g.Dep t x → x ∈ complete
  closed : ∀ t ∈ complete, ∀ x, g.Dep t x → x ∈ complete

theorem Ends.round {complete endpoints : Finset Text} {chains : Chains} (h : Ends g complete endpoints chains)
    {order : List Text} (horder : order.toFinset = endpoints) :
    ∃ chains' next, order.foldl (fun acc tid => (g.revdeps tid).foldl (collate tid) acc) (chains, ∅) =
      (chains', next) ∧ Ends g (complete ∪ endpoints) next chains' := by
  have hedge : ∀ x t, (x, t) ∈ order.flatMap (fun tid => (g.revdeps tid).map fun dep => (tid, dep)) ↔
      x ∈ endpoints ∧ g.Dep t x := by
    intro x t
    simp only [List.mem_flatMap, List.mem_map, Prod.mk.injEq, ← horder, List.mem_toFinset, TaskGraph.Dep]
    constructor
    · rintro ⟨_, hmem, _, hrev, rfl, rfl⟩
      exact ⟨hmem, g.matching.mp hrev⟩
    · rintro ⟨hmem, hdep⟩
      exact ⟨x, hmem, t, g.matching.mpr hdep, rfl, rfl⟩
  have hstart : Collated g complete [] (chains, ∅) :=
    ⟨fun t x => by simp [h.deps], fun t f => by simp [h.recipes], fun t => by simp⟩
  have hfold := hstart.fold (order.flatMap fun tid => (g.revdeps tid).map fun dep => (tid, dep)) fun e he => by
    obtain ⟨hmem, hdep⟩ := (hedge e.1 e.2).mp he
    exact ⟨hdep, ((h.ends e.1).mp hmem).2.2⟩
  have hsame : order.foldl (fun acc tid => (g.revdeps tid).foldl (collate tid) acc) (chains, ∅) =
      (order.flatMap fun tid => (g.revdeps tid).map fun dep => (tid, dep)).foldl
        (fun acc e => collate e.1 acc e.2) (chains, ∅) := by
    simp only [List.foldl_flatMap, List.foldl_map]
  rw [← hsame, List.append_nil] at hfold
  have hhandled : ∀ x t, (x, t) ∈ (order.flatMap fun tid => (g.revdeps tid).map fun dep => (tid, dep)).reverse ↔
      x ∈ endpoints ∧ g.Dep t x := by
    intro x t
    rw [List.mem_reverse, hedge]
  have hclosed : ∀ t ∈ complete ∪ endpoints, ∀ x, g.Dep t x → x ∈ complete := by
    intro t ht x hx
    rcases Finset.mem_union.mp ht with ht | ht
    · exact h.closed t ht x hx
    · exact ((h.ends t).mp ht).2.2 x hx
  have hdeps : ∀ t x, x ∈ (order.foldl (fun acc tid => (g.revdeps tid).foldl (collate tid) acc) (chains, ∅)).1.deps t ↔
      g.Dep t x ∧ x ∉ complete ∪ endpoints := by
    intro t x
    rw [hfold.deps, hhandled, Finset.mem_union]
    tauto
  refine ⟨_, _, rfl, hdeps, fun t f => ?_, fun t => ?_, fun t ht x hx => Finset.mem_union_left _ (hclosed t ht x hx)⟩
  · rw [hfold.recipes]
    simp only [hhandled, Finset.mem_union]
    constructor
    · rintro ⟨x, hx, hdep, hrest⟩
      exact ⟨x, by tauto, hdep, hrest⟩
    · rintro ⟨x, hx, hdep, hrest⟩
      exact ⟨x, by tauto, hdep, hrest⟩
  · rw [hfold.next]
    simp only [hhandled]
    constructor
    · rintro ⟨hempty, x, hx, hdep⟩
      refine ⟨(g.closed hdep).1, fun ht => ?_, fun y hy => ?_⟩
      · exact ((h.ends x).mp hx).2.1 (hclosed t ht x hdep)
      · by_contra hnot
        have hin := (hdeps t y).mpr ⟨hy, hnot⟩
        rw [hempty] at hin
        simp at hin
    · rintro ⟨hentry, hnot, hall⟩
      rw [Finset.mem_union, not_or] at hnot
      refine ⟨?_, ?_⟩
      · refine Finset.eq_empty_of_forall_notMem fun y hy => ?_
        exact ((hdeps t y).mp hy).2 (hall y ((hdeps t y).mp hy).1)
      · -- one of its dependencies was an end point, or the task would have been one
        by_contra hnone
        rw [not_exists] at hnone
        refine hnot.2 ((h.ends t).mpr ⟨hentry, hnot.1, fun x hx => ?_⟩)
        rcases Finset.mem_union.mp (hall x hx) with hc | he
        · exact hc
        · exact absurd ⟨he, hx⟩ (hnone x)

theorem walk_ends (it : Iteration Text) {turns : Nat} {complete endpoints : Finset Text} {chains : Chains}
    (h : Ends g complete endpoints chains) (hturns : (g.runtaskentries.toFinset \ complete).card < turns) :
    ∃ chains' complete', walk it g turns chains endpoints = some chains' ∧ Ends g complete' ∅ chains' := by
  induction turns generalizing complete endpoints chains with
  | zero => omega
  | succ turns ih =>
    rw [walk]
    by_cases hempty : endpoints = ∅
    · subst hempty
      exact ⟨chains, complete, if_pos rfl, h⟩
    · rw [if_neg hempty]
      obtain ⟨chains', next, hround, h'⟩ := h.round (it.toFinset (turns + 1) endpoints)
      dsimp only
      rw [hround]
      obtain ⟨t, ht⟩ := Finset.nonempty_iff_ne_empty.mpr hempty
      have hmem := (h.ends t).mp ht
      have hless : (g.runtaskentries.toFinset \ (complete ∪ endpoints)).card <
          (g.runtaskentries.toFinset \ complete).card := by
        refine Finset.card_lt_card ⟨Finset.sdiff_subset_sdiff Finset.Subset.rfl Finset.subset_union_left,
          fun hback => ?_⟩
        have hin : t ∈ g.runtaskentries.toFinset \ complete :=
          Finset.mem_sdiff.mpr ⟨List.mem_toFinset.mpr hmem.1, hmem.2.1⟩
        exact (Finset.mem_sdiff.mp (hback hin)).2 (Finset.mem_union_right complete ht)
      exact ih h' (by omega)

theorem cumulative_spec (hacyclic : g.Acyclic) (it : Iteration Text) {turns : Nat}
    (hturns : g.runtaskentries.length < turns) :
    ∃ cumulativedeps, cumulative it turns g = some cumulativedeps ∧
      ∀ t f, f ∈ cumulativedeps t ↔ ∃ y, Relation.TransGen g.Dep t y ∧ f = fn_from_tid y := by
  have hmem : ∀ t x, x ∈ (g.depends t).toFinset ↔ g.Dep t x := fun t x => List.mem_toFinset
  have hstart : Ends g ∅ (g.runtaskentries.toFinset.filter fun tid => (g.depends tid).toFinset = ∅)
      ⟨fun tid => (g.depends tid).toFinset, fun _ => ∅⟩ := by
    refine ⟨fun t x => by simp [TaskGraph.Dep], fun t f => by simp, fun t => ?_, by simp⟩
    simp only [Finset.mem_filter, List.mem_toFinset, Finset.eq_empty_iff_forall_notMem, hmem]
    simp
  have hcard : (g.runtaskentries.toFinset \ ∅).card < turns := by
    rw [Finset.sdiff_empty]
    exact Nat.lt_of_le_of_lt (List.toFinset_card_le _) hturns
  obtain ⟨chains, complete, hwalk, hends⟩ := walk_ends it hstart hcard
  have hall : ∀ t ∈ g.runtaskentries, t ∈ complete := by
    intro t
    induction t using hacyclic.wf_swap.induction with
    | h t ih =>
      intro ht
      by_contra hnot
      have hend := (hends.ends t).mpr ⟨ht, hnot, fun x hx => ih x hx (g.closed hx).2⟩
      simp at hend
  refine ⟨chains.cumulativedeps, by rw [cumulative, hwalk]; rfl, fun t f => ?_⟩
  rw [hends.recipes]
  constructor
  · rintro ⟨x, _, hdep, y, hy, rfl⟩
    exact ⟨y, .head' hdep hy, rfl⟩
  · rintro ⟨y, hy, rfl⟩
    obtain ⟨x, hdep, hy⟩ := Relation.TransGen.head'_iff.mp hy
    exact ⟨x, hall x (g.closed hdep).2, hdep, y, hy, rfl⟩

end

/-! ## The two rules -/

theorem totaldeps_mono {D C : Text → Finset Text} (h : D ≤ C) (tid : Text) : totaldeps d D tid ⊆ totaldeps d C tid := by
  unfold totaldeps
  apply Finset.union_subset_union
  · exact Finset.union_subset_union (h tid) Finset.Subset.rfl
  · exact Finset.biUnion_mono fun dep _ => h dep

/-- The tasks of the given names in the recipes that the dependencies need. -/
def recipes_rule (cumulativedeps : Text → Finset Text) (x : Text × List TaskName) : Rule Text Text where
  target := x.1
  adds depends := recipe_tasks d cumulativedeps depends x.1 x.2
  mono := by
    intro D C h
    unfold recipe_tasks
    apply Finset.filter_subset_filter
    apply Finset.biUnion_mono
    intro taskname _
    apply Finset.image_subset_image
    apply Finset.biUnion_subset_biUnion_of_subset_left
    exact Finset.filter_subset_filter _ (totaldeps_mono d h x.1)

/-- The tasks of the given names that the recursive tasks among the dependencies depend on. -/
def tasks_rule (x : Text × List TaskName) : Rule Text Text where
  target := x.1
  adds depends :=
    (((depends x.1).filter (· ∈ d.recursivetasks.map Prod.fst)).biUnion depends).filter fun newtid =>
      newtid ∈ d.entries ∧ x.2.any (ends_with newtid)
  mono := by
    intro D C h
    apply Finset.filter_subset_filter
    apply (Finset.biUnion_mono fun dep _ => h dep).trans
    apply Finset.biUnion_subset_biUnion_of_subset_left
    exact Finset.filter_subset_filter _ (h x.1)

def rules (cumulativedeps : Text → Finset Text) (order : List (Text × List TaskName)) : List (Rule Text Text) :=
  order.flatMap fun x => [recipes_rule d cumulativedeps x, tasks_rule d x]

theorem mem_other_deps (depends : Text → Finset Text) (x : Text × List TaskName) (newtid : Text) :
    newtid ∈ (other_deps d depends x.1).filter (· ∈ d.entries) ∧ x.2.any (ends_with newtid) ↔
      newtid ∈ (tasks_rule d x).adds depends ∧ newtid ∉ depends x.1 := by
  simp only [other_deps, tasks_rule, Finset.mem_filter, Finset.mem_biUnion, Finset.mem_sdiff]
  constructor
  · rintro ⟨⟨⟨dep, hdep, hin, hnot⟩, hentry⟩, hname⟩
    exact ⟨⟨⟨dep, hdep, hin⟩, hentry, hname⟩, hnot⟩
  · rintro ⟨⟨⟨dep, hdep, hin⟩, hentry, hname⟩, hnot⟩
    exact ⟨⟨⟨dep, hdep, hin, hnot⟩, hentry⟩, hname⟩

theorem resolve_task_depends (cumulativedeps : Text → Finset Text) (acc : (Text → Finset Text) × Nat)
    (x : Text × List TaskName) :
    (resolve_task d cumulativedeps acc x).1 =
      (tasks_rule d x).apply ((recipes_rule d cumulativedeps x).apply acc.1) := by
  have hfirst : Function.update acc.1 x.1
      (acc.1 x.1 ∪ recipe_tasks d cumulativedeps acc.1 x.1 x.2 \ acc.1 x.1) =
        (recipes_rule d cumulativedeps x).apply acc.1 := by
    rw [Finset.union_sdiff_self_eq_union]
    rfl
  have hsecond : ∀ depends : Text → Finset Text, depends x.1 ∪
      ((other_deps d depends x.1).filter (· ∈ d.entries)).filter (fun newtid => x.2.any (ends_with newtid)) =
        depends x.1 ∪ (tasks_rule d x).adds depends := by
    intro depends
    ext newtid
    rw [Finset.mem_union, Finset.mem_union, Finset.mem_filter, mem_other_deps]
    tauto
  unfold resolve_task
  dsimp only
  rw [hfirst, hsecond]
  rfl

theorem resolve_task_count (cumulativedeps : Text → Finset Text) (acc : (Text → Finset Text) × Nat)
    (x : Text × List TaskName) :
    (resolve_task d cumulativedeps acc x).2 = 0 ↔ acc.2 = 0 ∧
      (recipes_rule d cumulativedeps x).apply acc.1 = acc.1 ∧ (tasks_rule d x).apply acc.1 = acc.1 := by
  rw [apply_eq_iff, apply_eq_iff]
  have hcard : (recipe_tasks d cumulativedeps acc.1 x.1 x.2 \ acc.1 x.1).card = 0 ↔
      (recipes_rule d cumulativedeps x).adds acc.1 ⊆ acc.1 x.1 := by
    rw [Finset.card_eq_zero, Finset.sdiff_eq_empty_iff_subset]
    rfl
  have hcount : ∀ depends : Text → Finset Text,
      (∑ newtid ∈ (other_deps d depends x.1).filter (· ∈ d.entries), x.2.countP (ends_with newtid)) = 0 ↔
        (tasks_rule d x).adds depends ⊆ depends x.1 := by
    intro depends
    rw [Finset.sum_eq_zero_iff]
    constructor
    · intro h newtid hadds
      by_contra hnot
      have hmem := (mem_other_deps d depends x newtid).mpr ⟨hadds, hnot⟩
      have hzero := h newtid hmem.1
      rw [List.countP_eq_zero] at hzero
      obtain ⟨taskname, htask, hends⟩ := List.any_eq_true.mp hmem.2
      exact hzero taskname htask hends
    · intro h newtid hmem
      rw [List.countP_eq_zero]
      intro taskname htask hends
      have hadds := (mem_other_deps d depends x newtid).mp ⟨hmem, List.any_eq_true.mpr ⟨taskname, htask, hends⟩⟩
      exact hadds.2 (h hadds.1)
  unfold resolve_task
  dsimp only
  rw [Nat.add_eq_zero_iff, Nat.add_eq_zero_iff, hcard, hcount, and_assoc]
  refine and_congr_right fun _ => and_congr_right fun hnone => ?_
  have hsame : Function.update acc.1 x.1
      (acc.1 x.1 ∪ recipe_tasks d cumulativedeps acc.1 x.1 x.2 \ acc.1 x.1) = acc.1 := by
    rw [Finset.union_sdiff_self_eq_union]
    exact (apply_eq_iff (recipes_rule d cumulativedeps x) acc.1).mpr hnone
  rw [hsame]
  rfl

theorem turn_spec (cumulativedeps : Text → Finset Text) (order : List (Text × List TaskName))
    (acc : (Text → Finset Text) × Nat) :
    (order.foldl (resolve_task d cumulativedeps) acc).1 = round (rules d cumulativedeps order) acc.1 ∧
      ((order.foldl (resolve_task d cumulativedeps) acc).2 = 0 ↔
        acc.2 = 0 ∧ round (rules d cumulativedeps order) acc.1 = acc.1) := by
  induction order generalizing acc with
  | nil => simp [rules, saturation.round]
  | cons x order ih =>
    obtain ⟨hdepends, hcount⟩ := ih (resolve_task d cumulativedeps acc x)
    have hrules : rules d cumulativedeps (x :: order) =
        recipes_rule d cumulativedeps x :: tasks_rule d x :: rules d cumulativedeps order := rfl
    rw [List.foldl_cons, hrules]
    refine ⟨?_, ?_⟩
    · rw [hdepends, resolve_task_depends]
      rfl
    · rw [hcount, resolve_task_count, round_cons_eq_iff, round_cons_eq_iff, resolve_task_depends, and_assoc, and_assoc]
      refine and_congr_right fun _ => and_congr_right fun hfirst => and_congr_right fun hsecond => ?_
      rw [hfirst, hsecond]

/-! ## The loop ends -/

/-- The recursive tasks, as a set. -/
def RecursiveTasks.recursive : Finset Text := (d.recursivetasks.map Prod.fst).toFinset

theorem entry_of_recursive {x : Text × List TaskName} (h : x ∈ d.recursivetasks) : x.1 ∈ d.entries :=
  List.mem_toFinset.mpr (d.tasks x h)

theorem mem_rules {cumulativedeps : Text → Finset Text} {order : List (Text × List TaskName)} {r : Rule Text Text} :
    r ∈ rules d cumulativedeps order ↔
      ∃ x ∈ order, r = recipes_rule d cumulativedeps x ∨ r = tasks_rule d x := by
  simp [rules]

theorem adds_entries {cumulativedeps : Text → Finset Text} {order : List (Text × List TaskName)} {r : Rule Text Text}
    (h : r ∈ rules d cumulativedeps order) (depends : Text → Finset Text) : r.adds depends ⊆ d.entries := by
  intro newtid hadds
  obtain ⟨x, _, rfl | rfl⟩ := (mem_rules d).mp h
  · exact (Finset.mem_filter.mp hadds).2.2
  · exact (Finset.mem_filter.mp hadds).2.1

theorem target_recursive {cumulativedeps : Text → Finset Text} {order : List (Text × List TaskName)}
    (horder : order.Perm d.recursivetasks) {r : Rule Text Text} (h : r ∈ rules d cumulativedeps order) :
    r.target ∈ d.recursive := by
  have hmem : ∀ x ∈ order, x.1 ∈ d.recursive := by
    intro x hx
    exact List.mem_toFinset.mpr (List.mem_map_of_mem (horder.mem_iff.mp hx))
  obtain ⟨x, hx, rfl | rfl⟩ := (mem_rules d).mp h
  · exact hmem x hx
  · exact hmem x hx

theorem resolve_ends (cumulativedeps : Text → Finset Text) {order : List (Text × List TaskName)}
    (horder : order.Perm d.recursivetasks) {turns : Nat} {depends : Text → Finset Text}
    (hinside : Inside d.entries depends)
    (hturns : d.recursive.card * d.entries.card < turns + size d.recursive depends) :
    ∃ result, resolve d cumulativedeps order turns depends = some result ∧
      IsLeast {C | depends ≤ C ∧ Closed (rules d cumulativedeps order) C} result := by
  induction turns generalizing depends with
  | zero =>
    have hle : size d.recursive depends ≤ d.recursive.card * d.entries.card := size_le hinside
    omega
  | succ turns ih =>
    obtain ⟨hnext, hcount⟩ := turn_spec d cumulativedeps order (depends, 0)
    have hle := le_round (rules d cumulativedeps order) depends
    rw [resolve]
    by_cases hfixed : round (rules d cumulativedeps order) depends = depends
    · rw [if_pos (hcount.mpr ⟨rfl, hfixed⟩), hnext, hfixed]
      exact ⟨depends, rfl, isLeast_of_fixed (le_refl _) (fun C hC _ => hC) hfixed⟩
    · rw [if_neg fun hzero => hfixed (hcount.mp hzero).2, hnext]
      have hgrown := size_lt (fun r hr => target_recursive d horder hr) hfixed
      have hinside' : Inside d.entries (round (rules d cumulativedeps order) depends) :=
        inside_round (fun r hr D _ => adds_entries d hr D) hinside
      obtain ⟨result, hresult, hleast⟩ := ih hinside' (by omega)
      refine ⟨result, hresult, ⟨hle.trans hleast.1.1, hleast.1.2⟩, fun C hC => ?_⟩
      exact hleast.2 ⟨round_le hC.1 hC.2, hC.2⟩

/-! ## What the loop computes -/

def part_a (tid : Text) : Finset Text := (d.graph.depends tid).toFinset

/-- Closed under the two rules: a recursive task has the tasks of its names in all recipes that its dependencies
need, and those that the recursive tasks among its dependencies depend on. -/
structure ClosedUnder (depends : Text → Finset Text) : Prop where
  recipes : ∀ x ∈ d.recursivetasks, ∀ dep ∈ totaldeps d depends x.1, ∀ t, Relation.TransGen d.graph.Dep dep t →
    ∀ taskname ∈ x.2, tid_of (fn_from_tid t) taskname.1 ∈ d.entries → tid_of (fn_from_tid t) taskname.1 ≠ x.1 →
      tid_of (fn_from_tid t) taskname.1 ∈ depends x.1
  tasks : ∀ x ∈ d.recursivetasks, ∀ dep ∈ depends x.1, dep ∈ d.recursive → ∀ newtid ∈ depends dep,
    newtid ∈ d.entries → (∃ taskname ∈ x.2, ends_with newtid taskname) → newtid ∈ depends x.1

theorem entry_of_needs {dep t : Text} (h : Relation.TransGen d.graph.Dep dep t) : dep ∈ d.entries := by
  obtain ⟨_, hdep, _⟩ := Relation.TransGen.head'_iff.mp h
  exact List.mem_toFinset.mpr (d.graph.closed hdep).1

theorem closed_iff {cumulativedeps : Text → Finset Text}
    (hcumulative : ∀ t f, f ∈ cumulativedeps t ↔ ∃ y, Relation.TransGen d.graph.Dep t y ∧ f = fn_from_tid y)
    {order : List (Text × List TaskName)} (horder : order.Perm d.recursivetasks) (depends : Text → Finset Text) :
    Closed (rules d cumulativedeps order) depends ↔ ClosedUnder d depends := by
  have hrecipes : ∀ x : Text × List TaskName, ∀ newtid, newtid ∈ (recipes_rule d cumulativedeps x).adds depends ↔
      (∃ taskname ∈ x.2, ∃ dep ∈ totaldeps d depends x.1, ∃ t, Relation.TransGen d.graph.Dep dep t ∧
        newtid = tid_of (fn_from_tid t) taskname.1) ∧ newtid ≠ x.1 ∧ newtid ∈ d.entries := by
    intro x newtid
    simp only [recipes_rule, recipe_tasks, Finset.mem_filter, Finset.mem_biUnion, Finset.mem_image, List.mem_toFinset,
      hcumulative]
    constructor
    · rintro ⟨⟨taskname, htask, _, ⟨dep, hdep, t, ht, rfl⟩, rfl⟩, hrest⟩
      exact ⟨⟨taskname, htask, dep, hdep.1, t, ht, rfl⟩, hrest⟩
    · rintro ⟨⟨taskname, htask, dep, hdep, t, ht, rfl⟩, hrest⟩
      exact ⟨⟨taskname, htask, _, ⟨dep, ⟨hdep, entry_of_needs d ht⟩, t, ht, rfl⟩, rfl⟩, hrest⟩
  have htasks : ∀ x : Text × List TaskName, ∀ newtid, newtid ∈ (tasks_rule d x).adds depends ↔
      (∃ dep ∈ depends x.1, dep ∈ d.recursive ∧ newtid ∈ depends dep) ∧ newtid ∈ d.entries ∧
        ∃ taskname ∈ x.2, ends_with newtid taskname := by
    intro x newtid
    simp only [tasks_rule, Finset.mem_filter, Finset.mem_biUnion, RecursiveTasks.recursive, List.mem_toFinset,
      List.any_eq_true, and_assoc]
  constructor
  · intro h
    have hrule : ∀ x ∈ d.recursivetasks, (recipes_rule d cumulativedeps x).adds depends ⊆ depends x.1 ∧
        (tasks_rule d x).adds depends ⊆ depends x.1 := by
      intro x hx
      have hx' := horder.mem_iff.mpr hx
      exact ⟨h _ ((mem_rules d).mpr ⟨x, hx', Or.inl rfl⟩), h _ ((mem_rules d).mpr ⟨x, hx', Or.inr rfl⟩)⟩
    refine ⟨fun x hx dep hdep t ht taskname htask hentry hne => ?_, fun x hx dep hdep hrec newtid hin hentry hname => ?_⟩
    · exact (hrule x hx).1 ((hrecipes x _).mpr ⟨⟨taskname, htask, dep, hdep, t, ht, rfl⟩, hne, hentry⟩)
    · exact (hrule x hx).2 ((htasks x _).mpr ⟨⟨dep, hdep, hrec, hin⟩, hentry, hname⟩)
  · intro h r hr newtid hadds
    obtain ⟨x, hx, rfl | rfl⟩ := (mem_rules d).mp hr
    · obtain ⟨⟨taskname, htask, dep, hdep, t, ht, rfl⟩, hne, hentry⟩ := (hrecipes x newtid).mp hadds
      exact h.recipes x (horder.mem_iff.mp hx) dep hdep t ht taskname htask hentry hne
    · obtain ⟨⟨dep, hdep, hrec, hin⟩, hentry, hname⟩ := (htasks x newtid).mp hadds
      exact h.tasks x (horder.mem_iff.mp hx) dep hdep hrec newtid hin hentry hname

/-! ## The clean-up -/

theorem taskname_of_ends_with {tid : Text} {taskname : TaskName} (h : ends_with tid taskname) :
    taskname_from_tid tid = taskname.1 := by
  unfold ends_with at h
  rw [decide_eq_true_iff] at h
  obtain ⟨fn, rfl⟩ := h
  exact taskname_from_tid_of fn taskname.2

theorem selfref_of_least {depends : Text → Finset Text}
    (h : IsLeast {C | part_a d ≤ C ∧ ClosedUnder d C} depends) {tid : Text}
    (hself : tid ∈ depends tid) : tid ∈ recursivetasksselfref d := by
  by_contra hnot
  -- without the task itself, its set is closed just as well
  have hbelow : Function.update depends tid ((depends tid).erase tid) ≤ depends := by
    intro t
    by_cases ht : t = tid
    · subst ht
      rw [Function.update_self]
      exact Finset.erase_subset _ _
    · rw [Function.update_of_ne ht]
  have hstays : ∀ t newtid, newtid ∈ depends t → (t = tid → newtid ≠ tid) →
      newtid ∈ Function.update depends tid ((depends tid).erase tid) t := by
    intro t newtid hin hne
    by_cases ht : t = tid
    · subst ht
      rw [Function.update_self]
      exact Finset.mem_erase.mpr ⟨hne rfl, hin⟩
    · rw [Function.update_of_ne ht]
      exact hin
  have habove : part_a d ≤ Function.update depends tid ((depends tid).erase tid) := by
    intro t newtid hin
    refine hstays t newtid (h.1.1 t hin) ?_
    rintro heq rfl
    subst heq
    exact d.acyclic.irrefl _ (List.mem_toFinset.mp hin)
  have hclosed : ClosedUnder d (Function.update depends tid ((depends tid).erase tid)) := by
    refine ⟨fun y hy dep hdep t ht taskname htask hentry hne => ?_, fun y hy dep hdep hrec newtid hin hentry hname => ?_⟩
    · refine hstays y.1 _ ?_ fun heq => heq ▸ hne
      exact h.1.2.recipes y hy dep (totaldeps_mono d hbelow y.1 hdep) t ht taskname htask hentry hne
    · refine hstays y.1 newtid (h.1.2.tasks y hy dep (hbelow y.1 hdep) hrec newtid (hbelow dep hin) hentry hname) ?_
      rintro heq rfl
      obtain ⟨taskname, htask, hends⟩ := hname
      refine hnot (List.mem_toFinset.mpr (List.mem_map.mpr ⟨y, List.mem_filter.mpr ⟨hy, ?_⟩, heq⟩))
      rw [decide_eq_true_iff, heq, taskname_of_ends_with hends]
      exact List.mem_map_of_mem htask
  have hsmaller := h.2 ⟨habove, hclosed⟩ tid hself
  rw [Function.update_self] at hsmaller
  exact Finset.notMem_erase tid _ hsmaller

noncomputable def some_order : Iteration Text where
  order := fun _ s => s.toList
  nodup := fun _ s => s.nodup_toList
  toFinset := fun _ s => s.toList_toFinset

/-- The loop ends, with the same family whatever the order of the recursive tasks: the least one that holds what
part A has resolved and is closed under the two rules. After the clean-up no recursive task depends on itself. -/
theorem the_least_dependencies_are_resolved :
    ∃ depends, IsLeast {C | part_a d ≤ C ∧ ClosedUnder d C} depends ∧
      (∀ x ∈ d.recursivetasks, x.1 ∉ clean_up d depends x.1) ∧
      ∀ (it : Iteration Text) (turns : Nat) (order : List (Text × List TaskName)), order.Perm d.recursivetasks →
        d.graph.runtaskentries.length * d.graph.runtaskentries.length < turns →
          recursive_dependencies d it turns order = some depends := by
  have hinside : Inside d.entries (part_a d) := by
    intro tid dep hdep
    exact List.mem_toFinset.mpr (d.graph.closed (List.mem_toFinset.mp hdep)).2
  have hentries : d.entries.card ≤ d.graph.runtaskentries.length := List.toFinset_card_le _
  have hrecursive : d.recursive.card ≤ d.graph.runtaskentries.length := by
    apply (Finset.card_le_card _).trans hentries
    intro tid htid
    obtain ⟨x, hx, rfl⟩ := List.mem_map.mp (List.mem_toFinset.mp htid)
    exact entry_of_recursive d hx
  have hrun : ∀ (it : Iteration Text) (turns : Nat) (order : List (Text × List TaskName)),
      order.Perm d.recursivetasks → d.graph.runtaskentries.length * d.graph.runtaskentries.length < turns →
        ∃ depends, recursive_dependencies d it turns order = some depends ∧
          IsLeast {C | part_a d ≤ C ∧ ClosedUnder d C} depends := by
    intro it turns order horder hturns
    have hchains : d.graph.runtaskentries.length < turns :=
      Nat.lt_of_le_of_lt (Nat.le_mul_self _) hturns
    obtain ⟨cumulativedeps, hcumul, hspec⟩ := cumulative_spec d.acyclic it hchains
    have hbound : d.recursive.card * d.entries.card < turns + size d.recursive (part_a d) := by
      have hmul := Nat.mul_le_mul hrecursive hentries
      omega
    obtain ⟨depends, hresolve, hleast⟩ := resolve_ends d cumulativedeps horder hinside hbound
    refine ⟨depends, ?_, ?_⟩
    · rw [recursive_dependencies, hcumul]
      exact hresolve
    · simp only [closed_iff d hspec horder] at hleast
      exact hleast
  obtain ⟨depends, _, hleast⟩ := hrun some_order _ d.recursivetasks (List.Perm.refl _) (Nat.lt_succ_self _)
  refine ⟨depends, hleast, fun x hx hin => ?_, fun it turns order horder hturns => ?_⟩
  · unfold clean_up at hin
    split at hin
    · rename_i hself
      exact (Finset.mem_sdiff.mp hin).2 hself
    · rename_i hself
      exact hself (selfref_of_least d hleast hin)
  · obtain ⟨depends', hresult, hleast'⟩ := hrun it turns order horder hturns
    rw [hresult, hleast.unique hleast']

def image_edges : List (Text × Text) :=
  [(text "i:do_image", text "a:do_build"), (text "a:do_build", text "b:do_fetch")]

def image_tasks : List Text := [text "i:do_image", text "a:do_build", text "b:do_fetch", text "b:do_deploy"]

def image_graph : TaskGraph Text where
  runtaskentries := image_tasks
  depends := fun t => (image_edges.filter fun e => e.1 = t).map Prod.snd
  revdeps := fun dep => (image_edges.filter fun e => e.2 = dep).map Prod.fst
  closed := by
    intro t dep h
    obtain ⟨e, he, rfl⟩ := List.mem_map.mp h
    obtain ⟨he, ht⟩ := List.mem_filter.mp he
    have hall : ∀ e ∈ image_edges, e.1 ∈ image_tasks ∧ e.2 ∈ image_tasks := by decide
    rw [← of_decide_eq_true ht]
    exact hall e he
  matching := by
    intro t dep
    simp only [List.mem_map, List.mem_filter, decide_eq_true_eq, Prod.exists]
    constructor
    · rintro ⟨a, b, ⟨he, rfl⟩, rfl⟩
      exact ⟨a, b, ⟨he, rfl⟩, rfl⟩
    · rintro ⟨a, b, ⟨he, rfl⟩, rfl⟩
      exact ⟨a, b, ⟨he, rfl⟩, rfl⟩

theorem image_graph_acyclic : image_graph.Acyclic := by
  refine acyclic_of_lt (fun t => image_tasks.idxOf t) fun t dep h => ?_
  obtain ⟨e, he, rfl⟩ := List.mem_map.mp h
  obtain ⟨he, ht⟩ := List.mem_filter.mp he
  have hall : ∀ e ∈ image_edges, image_tasks.idxOf e.1 < image_tasks.idxOf e.2 := by decide
  rw [← of_decide_eq_true ht]
  exact hall e he

/-- The image's task deploys every recipe that it needs. -/
def image_deploys : RecursiveTasks where
  graph := image_graph
  acyclic := image_graph_acyclic
  colon := by decide
  recursivetasks := [(text "i:do_image", [⟨text "do_deploy", by decide⟩])]
  tasks := by decide
  nodup := by decide
  recideptask := []

theorem the_image_needs_the_deployment :
    ∃ depends, recursive_dependencies image_deploys some_order 17 image_deploys.recursivetasks = some depends ∧
      text "b:do_deploy" ∈ depends (text "i:do_image") := by
  obtain ⟨depends, hleast, _, hrun⟩ := the_least_dependencies_are_resolved image_deploys
  refine ⟨depends, hrun some_order 17 image_deploys.recursivetasks (List.Perm.refl _) (by decide), ?_⟩
  have hbuild : text "a:do_build" ∈ depends (text "i:do_image") := hleast.1.1 (text "i:do_image") (by decide)
  have htotal : text "a:do_build" ∈ totaldeps image_deploys depends (text "i:do_image") :=
    Finset.mem_union_left _ (Finset.mem_union_left _ hbuild)
  have hneeds : Relation.TransGen image_graph.Dep (text "a:do_build") (text "b:do_fetch") := by
    apply Relation.TransGen.single
    unfold TaskGraph.Dep
    decide
  exact hleast.1.2.recipes _ List.mem_cons_self _ htotal _ hneeds ⟨text "do_deploy", by decide⟩ List.mem_cons_self
    (by decide) (by decide)

end yocto.recursive_depends
