-- The end of `add_unresolved` (taskdata.py).
import Yocto.Halting

open yocto.task_ids yocto.ordered_dict yocto.taskdata yocto.triples yocto.triples.Prog yocto.runs
open yocto.provider_failure yocto.provider_soundness yocto.halting

namespace yocto.undecided

/-! ## What failures keep -/

/-- What a failure or an added file can raise. -/
def Raised (halt : Bool) (e : ProviderError) : Prop := e = .fatal ∨ (e = .noProvider ∧ halt = true)

/-- The program keeps the invariant, however it ends. -/
abbrev Safe {α : Type} (halt : Bool) (I : TaskData → Prop) (x : Choice α) : Prop :=
  Triple I x (fun _ s => I s) fun e s => I s ∧ Raised halt e

/-- What the steps of a failure keep. An empty list and its failed target are one step. -/
structure FailKept (I : TaskData → Prop) : Prop where
  mark : ∀ {s} fn, I s → I (mark fn s)
  failed : ∀ {s} k target, I s → I (s.add_failed_dep k target)
  dropped : ∀ {s} k target fn, I s → fn ∈ s.providers k target → (s.providers k target).erase fn ≠ [] →
    I (s.set_targets k ((s.targets k).set target ((s.providers k target).erase fn)))
  emptied : ∀ {s} k target fn, I s → fn ∈ s.providers k target →
    I ((s.set_targets k ((s.targets k).set target ((s.providers k target).erase fn))).add_failed_dep k target)

section
variable {I : TaskData → Prop} {α : Type} {halt : Bool} {fail : Text → Choice Unit}

theorem Safe.reading {F : TaskData → Choice α} (h : ∀ s, I s → Safe halt I (F s)) : Safe halt I (reading F) :=
  fun s hs => h s hs s hs

theorem Safe.pure (a : α) : Safe halt I (pure a : Choice α) := Triple.pure fun _ hs => hs

theorem fail_dependents_safe (h : ∀ fn, Safe halt I (fail fn)) (k : Kind) (target : Text) :
    Safe halt I (fail_dependents fail k target) := by
  have hfiles : Safe halt I (reading fun s => each fail (get_dependees s k target)) :=
    Safe.reading fun s _ => Triple.each _ fun fn _ => h fn
  refine Triple.bind (fun _ s => I s) hfiles fun _ => Safe.reading fun s _ => ?_
  apply Triple.each
  intro x _
  apply Triple.each
  intro dep _
  exact Triple.ite (fun _ => h (fn_of_tid x.1)) fun _ => Safe.pure ()

theorem remove_target_safe (halt : Bool) (h : ∀ fn, Safe halt I (fail fn)) (k : Kind) (target : Text) :
    Triple (fun s => I (s.add_failed_dep k target)) (remove_target halt fail k target) (fun _ s => I s)
      fun e s => I s ∧ Raised halt e := by
  refine Triple.bind (fun _ s => I s) (Triple.modify fun s hs => hs) fun _ => ?_
  refine Triple.bind (fun _ s => I s) (fail_dependents_safe h k target) fun _ => Safe.reading fun s _ => ?_
  apply Triple.ite
  · exact fun hrequired => Triple.raise fun s hs => ⟨hs, Or.inr ⟨rfl, hrequired.2.1⟩⟩
  · exact fun _ => Safe.pure ()

variable (hkept : FailKept I)
include hkept

theorem drop_provider_safe (h : ∀ fn, Safe halt I (fail fn)) (fn : Text) (k : Kind) (target : Text) :
    Safe halt I (drop_provider halt fail fn k target) := by
  intro s hs
  unfold halting.drop_provider
  rw [reading_apply]
  by_cases hin : fn ∈ s.providers k target
  · rw [if_pos hin]
    by_cases hnil : (s.providers k target).erase fn = []
    · dsimp only
      rw [if_pos hnil]
      exact remove_target_safe halt h k target _ (hkept.emptied k target fn hs hin)
    · dsimp only
      rw [if_neg hnil]
      exact hkept.dropped k target fn hs hin hnil
  · rw [if_neg hin]
    exact hs

theorem fail_depth_safe (halt : Bool) (depth : Nat) (fn : Text) : Safe halt I (fail_depth halt depth fn) := by
  induction depth generalizing fn with
  | zero => exact Safe.pure ()
  | succ depth ih =>
    have hside : ∀ k, Safe halt I (drop_providers halt (fail_depth halt depth) fn k) :=
      fun k => Safe.reading fun s _ => Triple.each _ fun target _ => drop_provider_safe hkept ih fn k target
    refine Safe.reading fun s _ => Triple.ite (fun _ => Safe.pure ()) fun _ => ?_
    refine Triple.bind (fun _ s => I s) (Triple.modify fun s hs => hkept.mark fn hs) fun _ => ?_
    exact Triple.bind (fun _ s => I s) (hside .build) fun _ => hside .run

theorem fail_fn_safe (halt : Bool) (fn : Text) : Safe halt I (fail_fn halt fn) :=
  Safe.reading fun _ _ => fail_depth_safe hkept halt _ fn

end

/-! ## Decided targets -/

/-- The target has a provider or has failed. -/
def Decided (s : TaskData) (k : Kind) (target : Text) : Prop :=
  target ∈ s.failed_deps k ∨ s.providers k target ≠ []

/-- The target is in the dict of its side. -/
def Seen (s : TaskData) (k : Kind) (target : Text) : Prop := target ∈ (s.targets k).map Prod.fst

theorem seen_set {s : TaskData} {k k' : Kind} {target target' : Text} {l : List Text} (h : Seen s k target) :
    Seen (s.set_targets k ((s.targets k).set target l)) k' target' ↔ Seen s k' target' := by
  unfold Seen TaskData.set_targets
  dsimp only
  by_cases hk : k' = k
  · subst hk
    rw [Function.update_self, OrderedDict.key_set]
    constructor
    · rintro (hin | rfl)
      · exact hin
      · exact h
    · exact Or.inl
  · rw [Function.update_of_ne hk]

theorem seen_of_providers {s : TaskData} {k : Kind} {target fn : Text} (h : fn ∈ s.providers k target) :
    Seen s k target := by
  by_contra hnot
  rw [providers_of_not_key hnot] at h
  cases h

/-- Everything that was decided still is. -/
def Settled (s t : TaskData) : Prop := ∀ k target, Decided s k target → Decided t k target

theorem Settled.failed (s : TaskData) (k : Kind) (target : Text) : Settled s (s.add_failed_dep k target) := by
  rintro k' target' (h | h)
  · exact Or.inl (mem_add_failed_dep.mpr (Or.inl h))
  · exact Or.inr h

theorem Settled.set {s : TaskData} {k : Kind} {target : Text} {l : List Text}
    (h : l ≠ [] ∨ target ∈ s.failed_deps k) : Settled s (s.set_targets k ((s.targets k).set target l)) := by
  intro k' target' hdecided
  by_cases heq : k' = k ∧ target' = target
  · obtain ⟨rfl, rfl⟩ := heq
    rcases h with hl | hfailed
    · refine Or.inr ?_
      rw [providers_set_self]
      exact hl
    · exact Or.inl hfailed
  · unfold Decided
    rw [providers_set_other s l heq]
    exact hdecided

/-- A failure leaves decided what was, and sees nothing new. -/
structure Failed (s t : TaskData) : Prop where
  settled : Settled s t
  seen : ∀ k target, Seen t k target ↔ Seen s k target
  depids : t.depids = s.depids

theorem Failed.refl (s : TaskData) : Failed s s := ⟨fun _ _ h => h, fun _ _ => Iff.rfl, rfl⟩

theorem failed_kept (s₀ : TaskData) : FailKept (Failed s₀) where
  mark fn h := ⟨h.settled, h.seen, h.depids⟩
  failed {s} k target h := ⟨fun k' t' hd => Settled.failed s k target k' t' (h.settled k' t' hd), h.seen, h.depids⟩
  dropped {s} k target fn h hin hleft := by
    refine ⟨fun k' t' hd => Settled.set (Or.inl hleft) k' t' (h.settled k' t' hd), fun k' t' => ?_, h.depids⟩
    rw [seen_set (seen_of_providers hin)]
    exact h.seen k' t'
  emptied {s} k target fn h hin := by
    refine ⟨fun k' t' hd => ?_, fun k' t' => ?_, h.depids⟩
    · have hfirst := Settled.failed s k target k' t' (h.settled k' t' hd)
      exact @Settled.set (s.add_failed_dep k target) k target _ (Or.inr (mem_add_failed_dep.mpr (Or.inr ⟨rfl, rfl⟩))) k' t' hfirst
    · exact (seen_set (seen_of_providers hin)).trans (h.seen k' t')

/-! ## A finite cache -/

/-- A cache in which finitely many files provide anything. -/
structure FiniteCache extends DataCache where
  files : List Text
  build_files : ∀ item, ∀ fn ∈ filterProviders item, fn ∈ files
  run_files : ∀ item, ∀ fn ∈ (filterProvidersRunTime item).1, fn ∈ files

def names (dc : DataCache) (fn : Text) : List Text :=
  let of_tasks := fun k => (dc.tasks fn).flatMap fun task =>
    ((parse_deps (dc.task_deps k fn task)).getD []).map Prod.fst
  dc.deps .build fn ++ dc.deps .run fn ++ of_tasks .build ++ of_tasks .run

/-- The targets that can ever be seen from a state on. -/
def world (dc : FiniteCache) (s : TaskData) : Finset Text :=
  let of_side := fun k => (s.targets k).map Prod.fst ++ (s.depids k).flatMap Prod.snd
  (of_side .build ++ of_side .run ++ dc.files.flatMap (names dc.toDataCache)).toFinset

/-- What the state names is in a set, and so is what the cache's files name. -/
structure Inside (dc : FiniteCache) (U : Finset Text) (s : TaskData) : Prop where
  seen : ∀ k target, Seen s k target → target ∈ U
  depids : ∀ k, ∀ x ∈ s.depids k, ∀ dep ∈ x.2, dep ∈ U
  files : ∀ fn ∈ dc.files, ∀ name ∈ names dc.toDataCache fn, name ∈ U

variable {dc : FiniteCache} {U : Finset Text}

theorem inside_world (dc : FiniteCache) (s : TaskData) : Inside dc (world dc s) s := by
  refine ⟨fun k target h => ?_, fun k x hx dep hdep => ?_, fun fn hfn name hname => ?_⟩
  · unfold Seen at h
    unfold world
    cases k <;> simp [h]
  · have hmem : dep ∈ (s.depids k).flatMap Prod.snd := List.mem_flatMap.mpr ⟨x, hx, hdep⟩
    unfold world
    cases k <;> simp [hmem]
  · have hmem : name ∈ dc.files.flatMap (names dc.toDataCache) := List.mem_flatMap.mpr ⟨fn, hfn, hname⟩
    unfold world
    simp [hmem]

/-- What was decided still is, and all is inside. -/
structure Within (dc : FiniteCache) (U : Finset Text) (s t : TaskData) : Prop where
  settled : Settled s t
  inside : Inside dc U t

theorem Within.refl {s : TaskData} (h : Inside dc U s) : Within dc U s s := ⟨fun _ _ hd => hd, h⟩

theorem Within.trans {s t u : TaskData} (h : Within dc U s t) (h' : Within dc U t u) : Within dc U s u :=
  ⟨fun k target hd => h'.settled k target (h.settled k target hd), h'.inside⟩

theorem Within.failed {s t : TaskData} (h : Inside dc U s) (hf : Failed s t) : Within dc U s t := by
  refine ⟨hf.settled, fun k target hseen => h.seen k target ((hf.seen k target).mp hseen), ?_, h.files⟩
  rw [hf.depids]
  exact h.depids

theorem within_kept (dc : FiniteCache) (U : Finset Text) (s₀ : TaskData) : FailKept (Within dc U s₀) where
  mark {s} fn h := h.trans (Within.failed h.inside ((failed_kept s).mark fn (Failed.refl s)))
  failed {s} k target h :=
    h.trans (Within.failed h.inside ((failed_kept s).failed k target (Failed.refl s)))
  dropped {s} k target fn h hin hleft :=
    h.trans (Within.failed h.inside
      ((failed_kept s).dropped k target fn (Failed.refl s) hin hleft))
  emptied {s} k target fn h hin :=
    h.trans (Within.failed h.inside
      ((failed_kept s).emptied k target fn (Failed.refl s) hin))

/-! ## What an added file keeps -/

theorem seen_target_within {s : TaskData} {name : Text} (h : Inside dc U s) (k : Kind) (hname : name ∈ U) :
    Within dc U s (seen_target k s name) := by
  have htouched := seen_target_touched k name s
  refine ⟨fun k' target hd => ?_, fun k' target hseen => ?_, ?_, h.files⟩
  · unfold Decided
    rw [htouched.failed_deps, htouched.providers]
    exact hd
  · unfold Seen seen_target at hseen
    split at hseen
    · exact h.seen k' target hseen
    · by_cases hk : k' = k
      · subst hk
        simp only [TaskData.set_targets, Function.update_self, List.map_append, List.mem_append] at hseen
        rcases hseen with hseen | hseen
        · exact h.seen k' target hseen
        · simp only [List.map_cons, List.map_nil, List.mem_singleton] at hseen
          exact hseen ▸ hname
      · simp only [TaskData.set_targets, Function.update_of_ne hk] at hseen
        exact h.seen k' target hseen
  · rw [htouched.depids]
    exact h.depids

theorem add_target_within {s : TaskData} {item : Text} (h : Inside dc U s) (k : Kind) (fn : Text) (hitem : item ∈ U) :
    Within dc U s (add_target k fn item s) := by
  unfold add_target
  split
  · exact Within.refl h
  · refine ⟨Settled.set (Or.inl (by simp)), fun k' target hseen => ?_, h.depids, h.files⟩
    unfold Seen TaskData.set_targets at hseen
    dsimp only at hseen
    by_cases hk : k' = k
    · subst hk
      rw [Function.update_self, OrderedDict.key_set] at hseen
      rcases hseen with hseen | rfl
      · exact h.seen k' target hseen
      · exact hitem
    · rw [Function.update_of_ne hk] at hseen
      exact h.seen k' target hseen

theorem add_target_decided (s : TaskData) (k : Kind) (fn item : Text) : Decided (add_target k fn item s) k item := by
  refine Or.inr fun hnil => ?_
  unfold add_target at hnil
  split at hnil
  · rename_i hin
    rw [hnil] at hin
    cases hin
  · rw [providers_set_self] at hnil
    simp at hnil

theorem handle_deps_within {s t : TaskData} {fn task : Text} {k : Kind} (h : Inside dc U s) (hfn : fn ∈ dc.files)
    (htask : task ∈ dc.tasks fn) (hok : handle_deps dc.toDataCache fn task k s = some t) : Within dc U s t := by
  unfold handle_deps at hok
  obtain ⟨ids, hids, hok⟩ := Option.bind_eq_some_iff.mp hok
  obtain rfl := Option.some.inj hok
  have hnames : ∀ dep ∈ ids, dep.1 ∈ U := by
    intro dep hdep
    apply h.files fn hfn
    have hmem : dep.1 ∈ (dc.tasks fn).flatMap fun task =>
        ((parse_deps (dc.task_deps k fn task)).getD []).map Prod.fst := by
      refine List.mem_flatMap.mpr ⟨task, htask, ?_⟩
      rw [hids]
      exact List.mem_map_of_mem hdep
    unfold names
    cases k <;> simp only [List.mem_append, hmem, true_or, or_true]
  have hfold : ∀ l : List (Text × Text), (∀ dep ∈ l, dep.1 ∈ U) → ∀ u, Within dc U s u →
      Within dc U s (l.foldl (fun s dep => seen_target k s dep.1) u) := by
    intro l
    induction l with
    | nil => exact fun _ u hu => hu
    | cons dep l ih =>
      intro hl u hu
      refine ih (fun dep' h' => hl dep' (List.mem_cons_of_mem _ h')) _ ?_
      exact hu.trans (seen_target_within hu.inside k (hl dep List.mem_cons_self))
  have hseen := hfold ids hnames s (Within.refl h)
  exact ⟨hseen.settled, hseen.inside.seen, hseen.inside.depids, hseen.inside.files⟩

theorem add_task_within {s t : TaskData} {fn task : Text} (h : Inside dc U s) (hfn : fn ∈ dc.files)
    (htask : task ∈ dc.tasks fn) (hok : add_task dc.toDataCache fn s task = some t) : Within dc U s t := by
  unfold add_task at hok
  obtain ⟨u, hbuild, hrun⟩ := Option.bind_eq_some_iff.mp hok
  have hentry : Inside dc U { s with taskentries := s.taskentries.set (tid_of fn task) ⟨fun _ => []⟩ } :=
    ⟨h.seen, h.depids, h.files⟩
  have hfirst := handle_deps_within hentry hfn htask hbuild
  have hstart : Within dc U s u := ⟨hfirst.settled, hfirst.inside⟩
  exact hstart.trans (handle_deps_within hstart.inside hfn htask hrun)

theorem tasks_within {s t : TaskData} {fn : Text} (hfn : fn ∈ dc.files) {tasks : List Text} (htasks : tasks ⊆ dc.tasks fn)
    (h : Inside dc U s) (hok : tasks.foldlM (add_task dc.toDataCache fn) s = some t) : Within dc U s t := by
  induction tasks generalizing s with
  | nil =>
    obtain rfl := Option.some.inj hok
    exact Within.refl h
  | cons task tasks ih =>
    rw [List.foldlM_cons] at hok
    obtain ⟨u, hfirst, hrest⟩ := Option.bind_eq_some_iff.mp hok
    have hturn := add_task_within h hfn (htasks List.mem_cons_self) hfirst
    exact hturn.trans (ih (fun task' h' => htasks (List.mem_cons_of_mem _ h')) hturn.inside hrest)

theorem set_depids_within {s : TaskData} {fn : Text} (h : Inside dc U s) (hfn : fn ∈ dc.files) (k : Kind) :
    Within dc U s (set_depids dc.toDataCache fn k s) := by
  unfold set_depids
  split
  · exact Within.refl h
  · refine ⟨fun _ _ hd => hd, h.seen, fun k' x hx dep hdep => ?_, h.files⟩
    by_cases hk : k' = k
    · subst hk
      dsimp only at hx
      rw [Function.update_self] at hx
      rcases OrderedDict.mem_of_mem_set hx with hx | rfl
      · exact h.depids k' x hx dep hdep
      · apply h.files fn hfn
        unfold names
        dsimp only at hdep
        cases k' <;> simp only [List.mem_append, hdep, true_or, or_true]
    · dsimp only at hx
      rw [Function.update_of_ne hk] at hx
      exact h.depids k' x hx dep hdep

section
variable {s₀ : TaskData} {halt : Bool}

theorem check_deps_safe (halt : Bool) (fn : Text) (k : Kind) {deps : List Text} (hdeps : ∀ dep ∈ deps, dep ∈ U) :
    Safe halt (Within dc U s₀) (check_deps halt fn k deps) := by
  refine @Triple.firstOf _ _ _ _ _ (fun _ s => Within dc U s₀ s) deps fun dep hdep => ?_
  refine Triple.bind (fun _ s => Within dc U s₀ s) (Triple.modify fun s hs => ?_) fun _ => Safe.reading fun s _ => ?_
  · exact hs.trans (seen_target_within hs.inside k (hdeps dep hdep))
  · apply Triple.ite
    · refine fun _ => Triple.bind (fun _ s => Within dc U s₀ s) (fail_fn_safe (within_kept dc U s₀) halt fn) fun _ => ?_
      exact Safe.pure true
    · exact fun _ => Safe.pure false

theorem add_tasks_safe (halt : Bool) {fn : Text} (hfn : fn ∈ dc.files) :
    Safe halt (Within dc U s₀) (add_tasks halt dc.toDataCache fn) := by
  have hchecks : ∀ k, Safe halt (Within dc U s₀)
      (reading fun s => check_deps halt fn k (((s.depids k).get? fn).getD [])) := by
    refine fun k => Safe.reading fun s hs => check_deps_safe halt fn k fun dep hdep => ?_
    cases hget : (s.depids k).get? fn with
    | none =>
      rw [hget] at hdep
      cases hdep
    | some deps =>
      rw [hget] at hdep
      exact hs.inside.depids k _ (OrderedDict.mem_of_get? hget) dep hdep
  refine Safe.reading fun s hs => Triple.ite (fun _ => Triple.raise fun s hs => ⟨hs, Or.inl rfl⟩) fun _ => ?_
  refine Triple.ite (fun _ => Safe.pure ()) fun _ => ?_
  cases htasks : (dc.tasks fn).foldlM (add_task dc.toDataCache fn) { s with seenfns := s.seenfns ++ [fn] } with
  | none => exact Triple.raise fun s hs => ⟨hs, Or.inl rfl⟩
  | some u =>
    have hu : Within dc U s₀ u := by
      have hstart : Within dc U s₀ { s with seenfns := s.seenfns ++ [fn] } :=
        ⟨hs.settled, hs.inside.seen, hs.inside.depids, hs.inside.files⟩
      exact hstart.trans (tasks_within hfn (fun _ h => h) hstart.inside htasks)
    refine Triple.bind (fun _ s => Within dc U s₀ s) (Triple.modify fun _ _ => ?_) fun _ => ?_
    · have hbuild := hu.trans (set_depids_within hu.inside hfn .build)
      exact hbuild.trans (set_depids_within hbuild.inside hfn .run)
    · refine Triple.bind (fun _ s => Within dc U s₀ s) (hchecks .build) fun failed => ?_
      refine Triple.ite (fun _ => Safe.pure ()) fun _ => ?_
      exact Triple.bind (fun _ s => Within dc U s₀ s) (hchecks .run) fun _ => Safe.pure ()

theorem provide_safe (halt : Bool) (k : Kind) {item fn : Text} (hitem : item ∈ U) (hfn : fn ∈ dc.files) :
    Safe halt (Within dc U s₀) (provide halt dc.toDataCache k item fn) := by
  refine Safe.reading fun s _ => Triple.ite (fun _ => Safe.pure ()) fun _ => ?_
  refine Triple.bind (fun _ s => Within dc U s₀ s) (Triple.modify fun s hs => ?_) fun _ => add_tasks_safe halt hfn
  exact hs.trans (add_target_within hs.inside k fn hitem)

end

/-! ## A call for one target -/

section
variable {s t : TaskData} {k : Kind} {target : Text} {halt : Bool}

theorem candidates_spec {eligible : List Text} (h : candidates dc.toDataCache k target s = .ok eligible)
    (hignored : dc.ignored target = false) :
    s.providers k target ≠ [] ∧ eligible = [] ∨
      eligible ≠ [] ∧ ∀ fn ∈ eligible, fn ∉ s.failed_fns ∧ fn ∈ dc.files := by
  cases k with
  | build =>
    change build_candidates dc.toDataCache target s = .ok eligible at h
    unfold build_candidates at h
    rw [hignored, if_neg Bool.false_ne_true] at h
    split at h
    · cases h
    · split at h
      · rename_i hne
        exact Or.inl ⟨hne, (Except.ok.inj h).symm⟩
      · dsimp only at h
        split at h
        · cases h
        · rename_i hne
          obtain rfl := Except.ok.inj h
          refine Or.inr ⟨hne, fun fn hfn => ?_⟩
          obtain ⟨hin, hgood⟩ := List.mem_filter.mp hfn
          exact ⟨of_decide_eq_true hgood, dc.build_files target fn hin⟩
  | run =>
    change run_candidates dc.toDataCache target s = .ok eligible at h
    unfold run_candidates at h
    rw [hignored, if_neg Bool.false_ne_true] at h
    split at h
    · rename_i hne
      exact Or.inl ⟨hne, (Except.ok.inj h).symm⟩
    · split at h
      · cases h
      · dsimp only at h
        split at h
        · cases h
        · rename_i hne
          split at h
          · cases h
          · obtain rfl := Except.ok.inj h
            refine Or.inr ⟨hne, fun fn hfn => ?_⟩
            obtain ⟨hin, hgood⟩ := List.mem_filter.mp hfn
            exact ⟨of_decide_eq_true hgood, dc.run_files target fn hin⟩

theorem add_item_error (halt : Bool) {e : ProviderError} (h : candidates dc.toDataCache k target s = .error e) :
    add_item halt dc.toDataCache k target s = (.error e, s) := by
  unfold halting.add_item
  rw [reading_apply, h]
  rfl

theorem add_item_settles (halt : Bool) {eligible : List Text} (h : candidates dc.toDataCache k target s = .ok eligible)
    (hignored : dc.ignored target = false) (hinside : Inside dc U s) (htarget : target ∈ U) :
    Within dc U s (add_item halt dc.toDataCache k target s).2 ∧
      Decided (add_item halt dc.toDataCache k target s).2 k target ∧
      ∀ e, (add_item halt dc.toDataCache k target s).1 = .error e → Raised halt e := by
  have hrun : add_item halt dc.toDataCache k target s = each (provide halt dc.toDataCache k target) eligible s := by
    unfold halting.add_item
    rw [reading_apply, h]
  rw [hrun]
  rcases candidates_spec h hignored with ⟨hne, rfl⟩ | ⟨hne, hfiles⟩
  · exact ⟨Within.refl hinside, Or.inr hne, fun e he => by cases he⟩
  · obtain ⟨fn, rest, rfl⟩ := List.exists_cons_of_ne_nil hne
    obtain ⟨hgood, hfn⟩ := hfiles fn List.mem_cons_self
    have hadd := add_target_within hinside k fn htarget
    have hafter : Safe halt (Within dc U (add_target k fn target s)) (do
        add_tasks halt dc.toDataCache fn
        each (provide halt dc.toDataCache k target) rest) := by
      refine Triple.bind (fun _ u => Within dc U (add_target k fn target s) u) (add_tasks_safe halt hfn) fun _ => ?_
      refine Triple.each rest fun fn' hfn' => provide_safe halt k htarget ?_
      exact (hfiles fn' (List.mem_cons_of_mem _ hfn')).2
    have hfirst : provide halt dc.toDataCache k target fn s =
        add_tasks halt dc.toDataCache fn (add_target k fn target s) := by
      unfold halting.provide
      rw [reading_apply, if_neg hgood]
      rfl
    have heach : each (provide halt dc.toDataCache k target) (fn :: rest) s = (do
        add_tasks halt dc.toDataCache fn
        each (provide halt dc.toDataCache k target) rest : Choice Unit) (add_target k fn target s) := by
      change andThen _ _ s = andThen _ _ (add_target k fn target s)
      unfold andThen
      rw [hfirst]
    have hmeets := hafter (add_target k fn target s) (Within.refl hadd.inside)
    rw [heach]
    split at hmeets
    · rename_i u hend
      rw [hend]
      exact ⟨hadd.trans hmeets, hmeets.settled k target (add_target_decided s k fn target), fun e he => by cases he⟩
    · rename_i e u hend
      rw [hend]
      refine ⟨hadd.trans hmeets.1, hmeets.1.settled k target (add_target_decided s k fn target), fun e' he => ?_⟩
      obtain rfl := Except.error.inj he
      exact hmeets.2

theorem remove_settles (halt : Bool) (k : Kind) (target : Text) (added : Nat) (s : TaskData) :
    let out := (do
      remove_target halt (fail_fn halt) k target
      pure added : Choice Nat) s
    Failed s out.2 ∧ Decided out.2 k target ∧ ∀ m, out.1 = .ok m → m = added := by
  have hmeets := remove_target_safe halt (fail_fn_safe (failed_kept (s.add_failed_dep k target)) halt) k target s
    (Failed.refl (s.add_failed_dep k target))
  have hfirst : ∀ u, Failed (s.add_failed_dep k target) u → Failed s u ∧ Decided u k target := by
    intro u hu
    refine ⟨⟨fun k' t' hd => hu.settled k' t' (Settled.failed s k target k' t' hd), hu.seen, hu.depids⟩, ?_⟩
    exact hu.settled k target (Or.inl (mem_add_failed_dep.mpr (Or.inr ⟨rfl, rfl⟩)))
  intro out
  cases hend : remove_target halt (fail_fn halt) k target s with
  | mk r u =>
    rw [hend] at hmeets
    cases r with
    | error e =>
      have hout : out = (.error e, u) := bind_error hend
      rw [hout]
      exact ⟨(hfirst u hmeets.1).1, (hfirst u hmeets.1).2, fun m hm => by cases hm⟩
    | ok a =>
      have hout : out = (.ok added, u) := bind_ok hend
      rw [hout]
      exact ⟨(hfirst u hmeets).1, (hfirst u hmeets).2, fun m hm => (Except.ok.inj hm).symm⟩

end

/-! ## A loop over targets -/

/-- One turn of a loop: it counts a target only when this is decided then, and where it counts none and is fair,
it sees nothing new. -/
structure Turned (dc : FiniteCache) (U : Finset Text) (strict fair : Prop) (k : Kind) (target : Text) (added : Nat)
    (s : TaskData) (out : Except ProviderError Nat × TaskData) : Prop where
  within : Within dc U s out.2
  count : ∀ m, out.1 = .ok m → m = added ∨ m = added + 1 ∧ Decided out.2 k target
  decided : strict → ∀ m, out.1 = .ok m → Decided out.2 k target
  seen : fair → out.1 = .ok added → ∀ k' t', Seen out.2 k' t' → Seen s k' t'

/-- The turns that a loop takes: each target, and the state before. -/
def turns (turn : Nat → Text → Choice Nat) : List Text → Nat → TaskData → List (Text × TaskData)
  | [], _, _ => []
  | target :: targets, added, s =>
    (target, s) :: match turn added target s with
      | (.ok added, t) => turns turn targets added t
      | (.error _, _) => []

structure Looped (dc : FiniteCache) (U : Finset Text) (strict fair : Prop) (k : Kind) (targets : List Text)
    (added : Nat) (s : TaskData) (out : Except ProviderError Nat × TaskData) : Prop where
  within : Within dc U s out.2
  count : ∀ m, out.1 = .ok m → m = added ∨ added < m ∧ ∃ target ∈ targets, Decided out.2 k target
  decided : strict → ∀ m, out.1 = .ok m → ∀ target ∈ targets, Decided out.2 k target
  seen : fair → out.1 = .ok added → ∀ k' t', Seen out.2 k' t' → Seen s k' t'

theorem looped (strict : Prop) (fair : Text → TaskData → Prop) {k : Kind} (turn : Nat → Text → Choice Nat)
    {targets : List Text}
    (hturn : ∀ target ∈ targets, ∀ added s, Inside dc U s →
      Turned dc U strict (fair target s) k target added s (turn added target s)) (added : Nat) {s : TaskData}
    (h : Inside dc U s) :
    Looped dc U strict (∀ x ∈ turns turn targets added s, fair x.1 x.2) k targets added s
      (targets.foldlM turn added s) := by
  induction targets generalizing added s with
  | nil =>
    refine ⟨Within.refl h, fun m hm => Or.inl (Except.ok.inj hm).symm, fun _ _ _ target ht => ?_, fun _ _ _ _ hs => hs⟩
    cases ht
  | cons target targets ih =>
    have hone := hturn target List.mem_cons_self added s h
    rw [List.foldlM_cons]
    cases hend : turn added target s with
    | mk r t =>
      rw [hend] at hone
      cases r with
      | error e =>
        rw [bind_error hend]
        exact ⟨hone.within, fun m hm => (nomatch hm), fun _ m hm => (nomatch hm), fun _ hm => (nomatch hm)⟩
      | ok b =>
        rw [bind_ok hend]
        have hrest := ih (fun target' h' => hturn target' (List.mem_cons_of_mem _ h')) b hone.within.inside
        have hturns : turns turn (target :: targets) added s = (target, s) :: turns turn targets b t := by
          rw [turns, hend]
        have hb := hone.count b rfl
        refine ⟨hone.within.trans hrest.within, fun m hm => ?_, fun hstrict m hm target' ht => ?_, fun hfair hm k' t' hs => ?_⟩
        · rcases hrest.count m hm with rfl | ⟨hlt, target', ht, hdecided⟩
          · rcases hb with rfl | ⟨rfl, hdecided⟩
            · exact Or.inl rfl
            · exact Or.inr ⟨Nat.lt_succ_self _, target, List.mem_cons_self, hrest.within.settled k target hdecided⟩
          · exact Or.inr ⟨by omega, target', List.mem_cons_of_mem _ ht, hdecided⟩
        · rcases List.mem_cons.mp ht with rfl | ht
          · exact hrest.within.settled k target' (hone.decided hstrict b rfl)
          · exact hrest.decided hstrict m hm target' ht
        · -- nothing was counted, so not in the first turn either
          have hsame : b = added := by
            rcases hrest.count added hm with heq | ⟨hlt, _⟩
            · exact heq.symm
            · omega
          subst hsame
          rw [hturns] at hfair
          apply hone.seen (hfair _ List.mem_cons_self) rfl
          exact hrest.seen (fun x hx => hfair x (List.mem_cons_of_mem _ hx)) hm k' t' hs

/-! ## The turns of `add_unresolved` -/

/-- While a provider of the target is added, another target's failure raises: the handler takes it for one of
this target. -/
def mistaken (halt : Bool) (dc : DataCache) (target : Text) (s : TaskData) : Bool :=
  match candidates dc .build target s, (add_item halt dc .build target s).1 with
  | .ok _, .error .noProvider => true
  | _, _ => false

section
variable {halt allowincomplete : Bool} {s u : TaskData} {k : Kind} {target : Text} {added : Nat} {strict fair : Prop}

theorem Turned.raised (h : Within dc U s u) (e : ProviderError) :
    Turned dc U strict fair k target added s (.error e, u) :=
  ⟨h, fun _ hm => (nomatch hm), fun _ _ hm => (nomatch hm), fun _ hm => (nomatch hm)⟩

theorem Turned.resolved (h : Within dc U s u) (hdecided : Decided u k target) :
    Turned dc U strict fair k target added s (.ok (added + 1), u) := by
  refine ⟨h, fun m hm => Or.inr ⟨(Except.ok.inj hm).symm, hdecided⟩, fun _ _ _ => hdecided, fun _ hm => ?_⟩
  have hcount := Except.ok.inj hm
  omega

theorem Turned.removed (h : Within dc U s u) (hseen : fair → ∀ k' t', Seen u k' t' → Seen s k' t') :
    Turned dc U strict fair k target added s ((do
      remove_target halt (fail_fn halt) k target
      pure added : Choice Nat) u) := by
  obtain ⟨hfailed, hdecided, hcount⟩ := remove_settles halt k target added u
  refine ⟨h.trans (Within.failed h.inside hfailed), fun m hm => Or.inl (hcount m hm), fun _ _ _ => hdecided, ?_⟩
  exact fun hfair _ k' t' hs => hseen hfair k' t' ((hfailed.seen k' t').mp hs)

theorem resolve_build_turned (halt allowincomplete : Bool) (hignored : dc.ignored target = false) (htarget : target ∈ U) (added : Nat)
    (hinside : Inside dc U s) :
    Turned dc U (allowincomplete = false) (mistaken halt dc.toDataCache target s = false) .build target added s
      (resolve_build halt dc.toDataCache allowincomplete added target s) := by
  unfold halting.resolve_build
  cases hadd : add_item halt dc.toDataCache .build target s with
  | mk r u =>
    have hfacts : Within dc U s u ∧ (r = .ok () → Decided u .build target) ∧
        (mistaken halt dc.toDataCache target s = false → r = .error .noProvider → u = s) := by
      cases hcandidates : candidates dc.toDataCache .build target s with
      | error e =>
        rw [add_item_error halt hcandidates] at hadd
        cases hadd
        exact ⟨Within.refl hinside, fun hr => (nomatch hr), fun _ _ => rfl⟩
      | ok eligible =>
        have hsettles := add_item_settles halt hcandidates hignored hinside htarget
        rw [hadd] at hsettles
        refine ⟨hsettles.1, fun _ => hsettles.2.1, fun hfair hr => ?_⟩
        unfold mistaken at hfair
        rw [hcandidates, hadd, hr] at hfair
        cases hfair
    cases r with
    | ok a =>
      have hcounted : (do
          add_item halt dc.toDataCache .build target
          pure (added + 1) : Choice Nat) s = (.ok (added + 1), u) := bind_ok hadd
      rw [attempt_ok hcounted]
      exact Turned.resolved hfacts.1 (hfacts.2.1 rfl)
    | error e =>
      have hraised : (do
          add_item halt dc.toDataCache .build target
          pure (added + 1) : Choice Nat) s = (.error e, u) := bind_error hadd
      rw [attempt_error hraised, reading_apply]
      split
      · exact Turned.raised hfacts.1 e
      · rename_i hhandled
        rw [not_or, not_not] at hhandled
        have hsame := fun hfair => hfacts.2.2 hfair (congrArg _ hhandled.1)
        split
        · rename_i hallow
          refine ⟨hfacts.1, fun m hm => Or.inl (Except.ok.inj hm).symm, fun hstrict => ?_, fun hfair _ k' t' hs => ?_⟩
          · rw [hallow] at hstrict
            cases hstrict
          · rw [hsame hfair] at hs
            exact hs
        · exact Turned.removed hfacts.1 fun hfair k' t' hs => hsame hfair ▸ hs

theorem resolve_run_turned (halt : Bool) (hignored : dc.ignored target = false) (htarget : target ∈ U) (added : Nat)
    (hinside : Inside dc U s) :
    Turned dc U True True .run target added s (resolve_run halt dc.toDataCache added target s) := by
  unfold halting.resolve_run
  cases hadd : add_item halt dc.toDataCache .run target s with
  | mk r u =>
    have hfacts : Within dc U s u ∧ (r = .ok () → Decided u .run target) ∧
        (r = .error .noRProvider ∨ r = .error .multipleRProvider → u = s) := by
      cases hcandidates : candidates dc.toDataCache .run target s with
      | error e =>
        rw [add_item_error halt hcandidates] at hadd
        cases hadd
        exact ⟨Within.refl hinside, fun hr => (nomatch hr), fun _ => rfl⟩
      | ok eligible =>
        have hsettles := add_item_settles halt hcandidates hignored hinside htarget
        rw [hadd] at hsettles
        refine ⟨hsettles.1, fun _ => hsettles.2.1, fun hr => ?_⟩
        rcases hr with hr | hr
        · rcases hsettles.2.2 _ hr with h | ⟨h, _⟩ <;> cases h
        · rcases hsettles.2.2 _ hr with h | ⟨h, _⟩ <;> cases h
    cases r with
    | ok a =>
      have hcounted : (do
          add_item halt dc.toDataCache .run target
          pure (added + 1) : Choice Nat) s = (.ok (added + 1), u) := bind_ok hadd
      rw [attempt_ok hcounted]
      exact Turned.resolved hfacts.1 (hfacts.2.1 rfl)
    | error e =>
      have hraised : (do
          add_item halt dc.toDataCache .run target
          pure (added + 1) : Choice Nat) s = (.error e, u) := bind_error hadd
      rw [attempt_error hraised]
      split
      · rename_i hhandled
        have hsame : u = s := hfacts.2.2 (hhandled.imp (congrArg _) (congrArg _))
        exact Turned.removed hfacts.1 fun _ k' t' hs => hsame ▸ hs
      · exact Turned.raised hfacts.1 e

end

/-! ## The rounds -/

instance (s : TaskData) (k : Kind) (target : Text) : Decidable (Decided s k target) :=
  inferInstanceAs (Decidable (_ ∨ _))

/-- The targets that can be seen and are not decided. -/
def undecided_targets (U : Finset Text) (s : TaskData) : Finset (Kind × Text) :=
  (Finset.univ ×ˢ U).filter fun x => ¬ Decided s x.1 x.2

/-- The turns over build targets in one round, and in the whole loop. -/
def build_turns (halt : Bool) (dc : DataCache) (allowincomplete : Bool) (s : TaskData) : List (Text × TaskData) :=
  turns (resolve_build halt dc allowincomplete) (unresolved dc .build s) 0 s

def turns_taken (halt : Bool) (dc : DataCache) (allowincomplete : Bool) : Nat → TaskData → List (Text × TaskData)
  | 0, _ => []
  | n + 1, s => build_turns halt dc allowincomplete s ++
    match resolve_round halt dc allowincomplete s with
    | (.ok added, t) => if added = 0 then [] else turns_taken halt dc allowincomplete n t
    | (.error _, _) => []

section
variable {halt allowincomplete : Bool} {s t : TaskData} {k : Kind} {target : Text}

theorem mem_unresolved : target ∈ unresolved dc.toDataCache k s ↔
    Seen s k target ∧ dc.ignored target = false ∧ ¬ Decided s k target := by
  unfold unresolved Seen Decided
  rw [List.mem_filter]
  simp

theorem build_looped (halt allowincomplete : Bool) (h : Inside dc U s) :
    Looped dc U (allowincomplete = false)
      (∀ x ∈ build_turns halt dc.toDataCache allowincomplete s, mistaken halt dc.toDataCache x.1 x.2 = false) .build
      (unresolved dc.toDataCache .build s) 0 s
      ((unresolved dc.toDataCache .build s).foldlM (resolve_build halt dc.toDataCache allowincomplete) 0 s) := by
  refine looped (allowincomplete = false) (fun target s => mistaken halt dc.toDataCache target s = false)
    (resolve_build halt dc.toDataCache allowincomplete) (fun target ht added s' hs' => ?_) 0 h
  have hmem := mem_unresolved.mp ht
  exact resolve_build_turned halt allowincomplete hmem.2.1 (h.seen _ _ hmem.1) added hs'

theorem run_looped (halt : Bool) (added : Nat) (h : Inside dc U s) :
    Looped dc U True True .run (unresolved dc.toDataCache .run s) added s
      ((unresolved dc.toDataCache .run s).foldlM (resolve_run halt dc.toDataCache) added s) := by
  have hturn : ∀ target ∈ unresolved dc.toDataCache .run s, ∀ added s', Inside dc U s' →
      Turned dc U True True .run target added s' (resolve_run halt dc.toDataCache added target s') := by
    intro target ht added s' hs'
    have hmem := mem_unresolved.mp ht
    exact resolve_run_turned halt hmem.2.1 (h.seen _ _ hmem.1) added hs'
  have hloop := looped True (fun _ _ => True) (resolve_run halt dc.toDataCache) hturn added h
  exact ⟨hloop.within, hloop.count, hloop.decided, fun _ => hloop.seen fun _ _ => trivial⟩

/-- One round: what it counts was undecided before, and where it counts nothing and makes no mistake, it leaves
nothing undecided. -/
structure Round (dc : FiniteCache) (U : Finset Text) (halt allowincomplete : Bool) (s : TaskData)
    (out : Except ProviderError Nat × TaskData) : Prop where
  within : Within dc U s out.2
  count : ∀ m, out.1 = .ok m → m ≠ 0 → ∃ k, ∃ target ∈ U, ¬ Decided s k target ∧ Decided out.2 k target
  decided : allowincomplete = false →
    (∀ x ∈ build_turns halt dc.toDataCache allowincomplete s, mistaken halt dc.toDataCache x.1 x.2 = false) →
      out.1 = .ok 0 → ∀ k target, Seen out.2 k target → dc.ignored target = false → Decided out.2 k target

theorem round_spec (halt allowincomplete : Bool) (h : Inside dc U s) :
    Round dc U halt allowincomplete s (resolve_round halt dc.toDataCache allowincomplete s) := by
  have hbuild := build_looped halt allowincomplete h
  cases hloop : (unresolved dc.toDataCache .build s).foldlM (resolve_build halt dc.toDataCache allowincomplete) 0 s with
  | mk r s₁ =>
    rw [hloop] at hbuild
    have hnew : ∀ target ∈ unresolved dc.toDataCache .build s, ¬ Decided s .build target ∧ target ∈ U := by
      intro target ht
      exact ⟨(mem_unresolved.mp ht).2.2, h.seen _ _ (mem_unresolved.mp ht).1⟩
    cases r with
    | error e =>
      have hout : resolve_round halt dc.toDataCache allowincomplete s = (.error e, s₁) := bind_error hloop
      rw [hout]
      exact ⟨hbuild.within, fun _ hm => (nomatch hm), fun _ _ hm => (nomatch hm)⟩
    | ok added =>
      have hout : resolve_round halt dc.toDataCache allowincomplete s =
          (unresolved dc.toDataCache .run s₁).foldlM (resolve_run halt dc.toDataCache) added s₁ := bind_ok hloop
      have hinside := hbuild.within.inside
      have hrun := run_looped halt added hinside
      rw [hout]
      refine ⟨hbuild.within.trans hrun.within, fun m hm hne => ?_, fun hallow hfair hm k target hseen hignored => ?_⟩
      · rcases hrun.count m hm with rfl | ⟨_, target, ht, hdecided⟩
        · rcases hbuild.count m rfl with rfl | ⟨_, target, ht, hdecided⟩
          · exact absurd rfl hne
          · exact ⟨.build, target, (hnew target ht).2, (hnew target ht).1, hrun.within.settled _ _ hdecided⟩
        · have hun := mem_unresolved.mp ht
          exact ⟨.run, target, hinside.seen _ _ hun.1, fun hd => hun.2.2 (hbuild.within.settled _ _ hd), hdecided⟩
      · -- neither loop counted anything
        have hzero : added = 0 := by
          rcases hrun.count 0 hm with heq | ⟨hlt, _⟩
          · exact heq.symm
          · omega
        subst hzero
        have hseen₁ := hrun.seen trivial hm k target hseen
        have hseen₀ := hbuild.seen hfair rfl k target hseen₁
        cases k with
        | build =>
          apply hrun.within.settled
          by_cases hd : Decided s .build target
          · exact hbuild.within.settled _ _ hd
          · exact hbuild.decided hallow 0 rfl target (mem_unresolved.mpr ⟨hseen₀, hignored, hd⟩)
        | run =>
          by_cases hd : Decided s₁ .run target
          · exact hrun.within.settled _ _ hd
          · exact hrun.decided trivial 0 hm target (mem_unresolved.mpr ⟨hseen₁, hignored, hd⟩)

theorem undecided_lt {s t : TaskData} (h : Within dc U s t)
    (hone : ∃ k, ∃ target ∈ U, ¬ Decided s k target ∧ Decided t k target) :
    (undecided_targets U t).card < (undecided_targets U s).card := by
  obtain ⟨k, target, hin, hnot, hdecided⟩ := hone
  apply Finset.card_lt_card
  rw [Finset.ssubset_iff]
  refine ⟨(k, target), ?_, fun x hx => ?_⟩
  · unfold undecided_targets
    rw [Finset.mem_filter]
    exact fun h => h.2 hdecided
  · unfold undecided_targets at hx ⊢
    rw [Finset.mem_insert, Finset.mem_filter] at hx
    rw [Finset.mem_filter]
    rcases hx with rfl | ⟨hx, hd⟩
    · exact ⟨by simp [hin], hnot⟩
    · exact ⟨hx, fun hd' => hd (h.settled _ _ hd')⟩

theorem add_unresolved_ends (h : Inside dc U s) {n : Nat} (hn : (undecided_targets U s).card < n) :
    (add_unresolved halt dc.toDataCache allowincomplete n s).isSome := by
  induction n generalizing s with
  | zero => omega
  | succ n ih =>
    have hround := round_spec halt allowincomplete h
    rw [halting.add_unresolved]
    cases hout : resolve_round halt dc.toDataCache allowincomplete s with
    | mk r t =>
      rw [hout] at hround
      cases r with
      | error e => rfl
      | ok added =>
        dsimp only
        split
        · rfl
        · rename_i hne
          have hlt := undecided_lt hround.within (hround.count added rfl hne)
          dsimp only at hlt
          exact ih hround.within.inside (by omega)

theorem add_unresolved_decides (h : Inside dc U s) {n : Nat}
    (hfair : ∀ x ∈ turns_taken halt dc.toDataCache false n s, mistaken halt dc.toDataCache x.1 x.2 = false)
    (hreturns : add_unresolved halt dc.toDataCache false n s = some (.ok (), t)) {k : Kind} {target : Text}
    (hseen : Seen t k target) (hignored : dc.ignored target = false) : Decided t k target := by
  induction n generalizing s with
  | zero => cases hreturns
  | succ n ih =>
    have hround := round_spec halt false h
    rw [halting.add_unresolved] at hreturns
    rw [turns_taken] at hfair
    cases hout : resolve_round halt dc.toDataCache false s with
    | mk r u =>
      rw [hout] at hround hreturns hfair
      cases r with
      | error e => cases hreturns
      | ok added =>
        dsimp only at hreturns hfair
        split at hreturns
        · rename_i hzero
          cases hreturns
          exact hround.decided rfl (fun x hx => hfair x (List.mem_append_left _ hx)) (congrArg _ hzero) k target hseen hignored
        · rename_i hne
          rw [if_neg hne] at hfair
          exact ih hround.within.inside (fun x hx => hfair x (List.mem_append_right _ hx)) hreturns

end

/-! ## Without a mistake `halt` makes no difference -/

section
variable {halt allowincomplete : Bool} {s t : TaskData} {target : Text} {added m : Nat}

theorem resolve_build_ends (hfair : mistaken halt dc.toDataCache target s = false)
    (h : resolve_build halt dc.toDataCache allowincomplete added target s = (.ok m, t)) :
    taskdata.resolve_build dc.toDataCache allowincomplete (s, added) target = .ok (t, m) := by
  unfold halting.resolve_build at h
  unfold taskdata.resolve_build
  cases hadd : add_item halt dc.toDataCache .build target s with
  | mk r u =>
    cases r with
    | ok a =>
      have hcounted : (do
          add_item halt dc.toDataCache .build target
          pure (added + 1) : Choice Nat) s = (.ok (added + 1), u) := bind_ok hadd
      rw [attempt_ok hcounted] at h
      cases h
      have hplain : add_provider_internal dc.toDataCache target s = .ok t := add_item_ends hadd
      rw [hplain]
    | error e =>
      have hraised : (do
          add_item halt dc.toDataCache .build target
          pure (added + 1) : Choice Nat) s = (.error e, u) := bind_error hadd
      rw [attempt_error hraised, reading_apply] at h
      split at h
      · cases h
      · rename_i hhandled
        rw [not_or, not_not] at hhandled
        obtain ⟨rfl, _⟩ := hhandled
        cases hcandidates : candidates dc.toDataCache .build target s with
        | ok eligible =>
          unfold mistaken at hfair
          rw [hcandidates, hadd] at hfair
          cases hfair
        | error e' =>
          rw [add_item_error halt hcandidates] at hadd
          cases hadd
          have hplain : add_provider_internal dc.toDataCache target s = .error .noProvider := by
            change build_candidates dc.toDataCache target s = _ at hcandidates
            unfold add_provider_internal
            rw [hcandidates]
            rfl
          rw [hplain]
          dsimp only
          split at h
          · rename_i hallow
            cases h
            rw [if_pos hallow]
          · rename_i hallow
            obtain ⟨_, v, hremove, hpure⟩ := bind_ends h
            cases hpure
            rw [if_neg hallow, remove_target_ends (fail_fn_ends halt) .build target s t hremove]
            rfl

theorem resolve_run_ends (hinside : Inside dc U s) (hignored : dc.ignored target = false) (htarget : target ∈ U)
    (h : resolve_run halt dc.toDataCache added target s = (.ok m, t)) :
    taskdata.resolve_run dc.toDataCache (s, added) target = .ok (t, m) := by
  unfold halting.resolve_run at h
  unfold taskdata.resolve_run
  cases hadd : add_item halt dc.toDataCache .run target s with
  | mk r u =>
    cases r with
    | ok a =>
      have hcounted : (do
          add_item halt dc.toDataCache .run target
          pure (added + 1) : Choice Nat) s = (.ok (added + 1), u) := bind_ok hadd
      rw [attempt_ok hcounted] at h
      cases h
      have hplain : add_rprovider dc.toDataCache target s = .ok t := add_item_ends hadd
      rw [hplain]
    | error e =>
      have hraised : (do
          add_item halt dc.toDataCache .run target
          pure (added + 1) : Choice Nat) s = (.error e, u) := bind_error hadd
      rw [attempt_error hraised] at h
      split at h
      · rename_i hhandled
        cases hcandidates : candidates dc.toDataCache .run target s with
        | ok eligible =>
          have hsettles := add_item_settles halt hcandidates hignored hinside htarget
          rw [hadd] at hsettles
          rcases hsettles.2.2 e rfl with rfl | ⟨rfl, _⟩ <;> simp at hhandled
        | error e' =>
          rw [add_item_error halt hcandidates] at hadd
          cases hadd
          have hplain : add_rprovider dc.toDataCache target s = .error e := by
            change run_candidates dc.toDataCache target s = _ at hcandidates
            unfold add_rprovider
            rw [hcandidates]
            rfl
          obtain ⟨_, v, hremove, hpure⟩ := bind_ends h
          cases hpure
          rw [hplain, remove_target_ends (fail_fn_ends halt) .run target s t hremove]
          rcases hhandled with rfl | rfl <;> rfl
      · cases h

theorem loop_ends (fair : Text → TaskData → Prop) {turn : Nat → Text → Choice Nat} {targets : List Text}
    {plain : TaskData × Nat → Text → Except ProviderError (TaskData × Nat)}
    (hturn : ∀ target ∈ targets, ∀ added s m t, Inside dc U s → fair target s → turn added target s = (.ok m, t) →
      plain (s, added) target = .ok (t, m) ∧ Inside dc U t) (hinside : Inside dc U s)
    (hfair : ∀ x ∈ turns turn targets added s, fair x.1 x.2) (h : targets.foldlM turn added s = (.ok m, t)) :
    targets.foldlM plain (s, added) = .ok (t, m) := by
  induction targets generalizing added s with
  | nil =>
    cases h
    rfl
  | cons target targets ih =>
    rw [List.foldlM_cons] at h
    obtain ⟨b, u, hone, hrest⟩ := bind_ends h
    rw [turns, hone] at hfair
    obtain ⟨hplain, hinside'⟩ := hturn target List.mem_cons_self added s b u hinside (hfair _ List.mem_cons_self) hone
    rw [List.foldlM_cons, hplain]
    exact ih (fun target' h' => hturn target' (List.mem_cons_of_mem _ h')) hinside'
      (fun x hx => hfair x (List.mem_cons_of_mem _ hx)) hrest

theorem add_unresolved_without_halt (hinside : Inside dc U s) {n : Nat}
    (hfair : ∀ x ∈ turns_taken halt dc.toDataCache allowincomplete n s, mistaken halt dc.toDataCache x.1 x.2 = false)
    (h : add_unresolved halt dc.toDataCache allowincomplete n s = some (.ok (), t)) :
    taskdata.add_unresolved dc.toDataCache allowincomplete n s = some t := by
  induction n generalizing s with
  | zero => cases h
  | succ n ih =>
    have hround := round_spec halt allowincomplete hinside
    have hbuild := build_looped halt allowincomplete hinside
    rw [halting.add_unresolved] at h
    rw [turns_taken] at hfair
    rw [taskdata.add_unresolved]
    cases hloop : (unresolved dc.toDataCache .build s).foldlM (resolve_build halt dc.toDataCache allowincomplete) 0 s with
    | mk r s₁ =>
      rw [hloop] at hbuild
      cases r with
      | error e =>
        have hout : resolve_round halt dc.toDataCache allowincomplete s = (.error e, s₁) := bind_error hloop
        rw [hout] at h
        cases h
      | ok added =>
        have hout : resolve_round halt dc.toDataCache allowincomplete s =
            (unresolved dc.toDataCache .run s₁).foldlM (resolve_run halt dc.toDataCache) added s₁ := bind_ok hloop
        have hplain : (unresolved dc.toDataCache .build s).foldlM
            (taskdata.resolve_build dc.toDataCache allowincomplete) (s, 0) = .ok (s₁, added) := by
          refine loop_ends (fun target s => mistaken halt dc.toDataCache target s = false)
            (fun target ht b u m v hu hone hend => ?_) hinside (fun x hx => hfair x (List.mem_append_left _ hx)) hloop
          have hmem := mem_unresolved.mp ht
          have hturned := resolve_build_turned halt allowincomplete hmem.2.1
            (hinside.seen _ _ hmem.1) b hu
          rw [hend] at hturned
          exact ⟨resolve_build_ends hone hend, hturned.within.inside⟩
        rw [hplain]
        dsimp only
        rw [hout] at h hround hfair
        cases hrun : (unresolved dc.toDataCache .run s₁).foldlM (resolve_run halt dc.toDataCache) added s₁ with
        | mk r' s₂ =>
          rw [hrun] at h hround hfair
          cases r' with
          | error e => cases h
          | ok added' =>
            have hplain' : (unresolved dc.toDataCache .run s₁).foldlM (taskdata.resolve_run dc.toDataCache) (s₁, added) =
                .ok (s₂, added') := by
              refine loop_ends (fun _ _ => True) (fun target ht b u m v hu _ hend => ?_) hbuild.within.inside
                (fun _ _ => trivial) hrun
              have hmem := mem_unresolved.mp ht
              have hin := hbuild.within.inside.seen _ _ hmem.1
              have hturned := resolve_run_turned halt hmem.2.1 hin b hu
              rw [hend] at hturned
              exact ⟨resolve_run_ends hu hmem.2.1 hin hend, hturned.within.inside⟩
            rw [hplain']
            dsimp only at h hfair ⊢
            split at h
            · rename_i hzero
              rw [if_pos hzero]
              cases h
              rfl
            · rename_i hne
              rw [if_neg hne] at hfair
              rw [if_neg hne]
              exact ih hround.within.inside (fun x hx => hfair x (List.mem_append_right _ hx)) h

end

/-! ## Runs of calls -/

/-- One call that returns, or whose exception leaves the state. -/
def step (halt : Bool) (dc : DataCache) (s : TaskData) : Op → Option TaskData
  | .add_provider item =>
    match add_provider halt dc item s with
    | (.ok _, t) => some t
    | (.error _, _) => none
  | .add_rprovider item =>
    match add_item halt dc .run item s with
    | (.ok _, t) => some t
    | (.error e, t) => if e = .noRProvider ∨ e = .multipleRProvider then some t else none
  | .add_unresolved allowincomplete n =>
    match add_unresolved halt dc allowincomplete n s with
    | some (.ok _, t) => some t
    | _ => none

/-- No turn of the call is mistaken. -/
def Heeds (halt : Bool) (dc : DataCache) (s : TaskData) : Op → Prop
  | .add_unresolved allowincomplete n =>
    ∀ x ∈ turns_taken halt dc allowincomplete n s, mistaken halt dc x.1 x.2 = false
  | _ => True

section
variable {halt : Bool} {s t : TaskData} {k : Kind} {item : Text}

theorem add_item_raises {e : ProviderError} (h : add_item halt dc.toDataCache k item s = (.error e, t)) :
    candidates dc.toDataCache k item s = .error e ∧ t = s ∨ Raised halt e := by
  cases hcandidates : candidates dc.toDataCache k item s with
  | error e' =>
    rw [add_item_error halt hcandidates] at h
    cases h
    exact Or.inl ⟨rfl, rfl⟩
  | ok eligible =>
    right
    cases hignored : dc.ignored item with
    | true =>
      have hnone : candidates dc.toDataCache k item s = .ok [] := by
        cases k with
        | build => exact if_pos hignored
        | run => exact if_pos hignored
      unfold halting.add_item at h
      rw [reading_apply, hnone] at h
      cases h
    | false =>
      have hworld := inside_world dc s
      have hinside : Inside dc (insert item (world dc s)) s :=
        ⟨fun k t h => Finset.mem_insert_of_mem (hworld.seen k t h),
          fun k x hx dep hdep => Finset.mem_insert_of_mem (hworld.depids k x hx dep hdep),
          fun fn hfn name hname => Finset.mem_insert_of_mem (hworld.files fn hfn name hname)⟩
      have hsettles := add_item_settles halt hcandidates hignored hinside (Finset.mem_insert_self _ _)
      rw [h] at hsettles
      exact hsettles.2.2 e rfl

theorem never_mistaken (dc : FiniteCache) (target : Text) (s : TaskData) :
    mistaken false dc.toDataCache target s = false := by
  by_contra hmistaken
  rw [Bool.not_eq_false] at hmistaken
  unfold mistaken at hmistaken
  split at hmistaken
  · rename_i eligible hcandidates hraised
    have hend : add_item false dc.toDataCache .build target s =
        (.error .noProvider, (add_item false dc.toDataCache .build target s).2) := Prod.ext hraised rfl
    rcases add_item_raises hend with ⟨hnone, _⟩ | hboth
    · rw [hcandidates] at hnone
      cases hnone
    · rcases hboth with h | ⟨_, h⟩ <;> cases h
  · cases hmistaken

theorem add_provider_without_halt (h : add_provider halt dc.toDataCache item s = (.ok (), t)) :
    taskdata.add_provider dc.toDataCache item s = .ok t := by
  unfold halting.add_provider at h
  obtain ⟨_, u, hadded, hmark⟩ := bind_ends h
  cases hmark
  unfold taskdata.add_provider
  cases hadd : add_item halt dc.toDataCache .build item s with
  | mk r v =>
    cases r with
    | ok a =>
      rw [attempt_ok hadd] at hadded
      cases hadded
      have hplain : add_provider_internal dc.toDataCache item s = .ok u := add_item_ends hadd
      rw [hplain]
    | error e =>
      rw [attempt_error hadd] at hadded
      split at hadded
      · rename_i hhandled
        obtain ⟨rfl, rfl⟩ := hhandled
        rcases add_item_raises hadd with ⟨hnone, rfl⟩ | hboth
        · have hplain : add_provider_internal dc.toDataCache item v = .error .noProvider := by
            change build_candidates dc.toDataCache item v = _ at hnone
            unfold add_provider_internal
            rw [hnone]
            rfl
          rw [hplain, remove_target_ends (fail_fn_ends false) .build item v u hadded]
          rfl
        · rcases hboth with h | ⟨_, h⟩ <;> cases h
      · cases hadded

theorem step_without_halt {op : Op} (hheeds : Heeds halt dc.toDataCache s op)
    (h : step halt dc.toDataCache s op = some t) : taskdata.step dc.toDataCache s op = some t := by
  cases op with
  | add_provider item =>
    unfold step at h
    dsimp only at h
    split at h
    · rename_i u hadd
      cases h
      unfold taskdata.step
      dsimp only
      rw [add_provider_without_halt hadd]
      rfl
    · cases h
  | add_rprovider item =>
    unfold step at h
    dsimp only at h
    unfold taskdata.step
    dsimp only
    split at h
    · rename_i u hadd
      cases h
      have hplain : add_rprovider dc.toDataCache item s = .ok t := add_item_ends hadd
      rw [hplain]
    · rename_i e u hadd
      split at h
      · rename_i hhandled
        cases h
        rcases add_item_raises hadd with ⟨hnone, rfl⟩ | hboth
        · have hplain : add_rprovider dc.toDataCache item t = .error e := by
            change run_candidates dc.toDataCache item t = _ at hnone
            unfold add_rprovider
            rw [hnone]
            rfl
          rw [hplain]
          rcases hhandled with rfl | rfl <;> rfl
        · rcases hboth with rfl | ⟨rfl, _⟩ <;> simp at hhandled
      · cases h
  | add_unresolved allowincomplete n =>
    unfold step at h
    dsimp only at h
    split at h
    · rename_i u hreturns
      cases h
      exact add_unresolved_without_halt (inside_world dc s) hheeds hreturns
    · cases h

theorem listed_step {op : Op} (hlisted : Listed dc.toDataCache s) (hheeds : Heeds halt dc.toDataCache s op)
    (h : step halt dc.toDataCache s op = some t) : Listed dc.toDataCache t :=
  (listed_kept dc.toDataCache).step hlisted (StepOk.of_forall (fun _ _ _ _ => trivial) s op)
    (step_without_halt hheeds h)

end

/-- The loop ends in every state and however it ends. Where it returns and no turn was mistaken, every target
is ignored, has failed, or has a provider that has not failed; this is for every state whose lists are in
order, and so are those that calls reach in the same way. -/
theorem add_unresolved_ends_and_decides (dc : FiniteCache) (halt : Bool) :
    (∀ allowincomplete s n, 2 * (world dc s).card < n →
      (add_unresolved halt dc.toDataCache allowincomplete n s).isSome) ∧
    (∀ s, Reaches (step halt dc.toDataCache) (Heeds halt dc.toDataCache) .init s → Listed dc.toDataCache s) ∧
    ∀ s, Listed dc.toDataCache s → ∀ n t,
      (∀ x ∈ turns_taken halt dc.toDataCache false n s, mistaken halt dc.toDataCache x.1 x.2 = false) →
      add_unresolved halt dc.toDataCache false n s = some (.ok (), t) →
      ∀ k target, Seen t k target → dc.ignored target = true ∨ target ∈ t.failed_deps k ∨
        ∃ fn ∈ t.providers k target, fn ∉ t.failed_fns := by
  refine ⟨fun allowincomplete s n hn => ?_, fun s hrun => ?_, fun s hlisted n t hfair hreturns k target hseen => ?_⟩
  · apply add_unresolved_ends (inside_world dc s)
    have hcard : (undecided_targets (world dc s) s).card ≤ 2 * (world dc s).card := by
      refine (Finset.card_filter_le _ _).trans (le_of_eq ?_)
      rw [Finset.card_product]
      rfl
    omega
  · exact hrun.invariant (Sound.init dc.toDataCache).toListed fun _ _ _ hI hheeds hstep => listed_step hI hheeds hstep
  · have hstep : step halt dc.toDataCache s (.add_unresolved false n) = some t := by
      unfold step
      dsimp only
      rw [hreturns]
    have hheeds : Heeds halt dc.toDataCache s (.add_unresolved false n) := hfair
    have hlisted' := listed_step hlisted hheeds hstep
    cases hignored : dc.ignored target with
    | true => exact Or.inl rfl
    | false =>
      right
      rcases add_unresolved_decides (inside_world dc s) hfair hreturns hseen hignored with hfailed | hne
      · exact Or.inl hfailed
      · obtain ⟨fn, hfn⟩ := List.exists_mem_of_ne_nil _ hne
        exact Or.inr ⟨fn, hfn, fun hfailed => hlisted'.unlisted fn hfailed k target hfn⟩

def fourTargets : FiniteCache where
  tasks _ := []
  task_deps _ _ _ := []
  deps k fn :=
    if k = .run then []
    else if fn = text "fa" then [text "d", text "y"]
    else if fn = text "fx" then [text "t"]
    else if fn = text "ft" then [text "d"] else []
  ignored _ := false
  provided item := item ∈ [text "x", text "y", text "t"]
  filterProviders item :=
    if item = text "x" then [text "fa", text "fx"]
    else if item = text "y" then [text "fx"]
    else if item = text "t" then [text "ft"] else []
  getRuntimeProviders _ := []
  filterProvidersRunTime _ := ([], 0)
  files := [text "fa", text "fx", text "ft"]
  build_files := by
    intro item fn hfn
    split at hfn
    · exact List.mem_of_mem_take (i := 2) hfn
    · split at hfn
      · exact List.mem_cons_of_mem _ (List.mem_of_mem_take (i := 1) hfn)
      · split at hfn
        · exact List.mem_of_mem_drop (i := 2) hfn
        · cases hfn
  run_files := by simp

def required (halt : Bool) : TaskData := (add_provider halt fourTargets.toDataCache (text "x") .init).2

theorem required_reached (halt : Bool) :
    Reaches (step halt fourTargets.toDataCache) (Heeds halt fourTargets.toDataCache) .init (required halt) := by
  refine Reaches.step (a := .add_provider (text "x")) Reaches.start trivial ?_
  have hends : (add_provider halt fourTargets.toDataCache (text "x") .init).1 = .ok () := by
    cases halt <;> decide +kernel
  have hpair : add_provider halt fourTargets.toDataCache (text "x") .init = (.ok (), required halt) := Prod.ext hends rfl
  unfold step
  dsimp only
  rw [hpair]

/-- What is left, and how the call ends. -/
def resolved (halt : Bool) : Except ProviderError Unit × TaskData :=
  (add_unresolved halt fourTargets.toDataCache false 5 (required halt)).get (by cases halt <;> decide +kernel)

theorem resolved_ends (halt : Bool) :
    add_unresolved halt fourTargets.toDataCache false 5 (required halt) = some (.ok (), (resolved halt).2) := by
  have hends : (resolved halt).1 = .ok () := by cases halt <;> decide +kernel
  rw [← hends]
  exact (Option.some_get _).symm

theorem y_is_decided_without_halt :
    Seen (resolved false).2 .build (text "y") ∧
      (text "y" ∈ (resolved false).2.failed_deps .build ∨
        ∃ fn ∈ (resolved false).2.providers .build (text "y"), fn ∉ (resolved false).2.failed_fns) := by
  have hseen : Seen (resolved false).2 .build (text "y") := by
    unfold Seen
    decide +kernel
  obtain ⟨_, hreached, hdecides⟩ := add_unresolved_ends_and_decides fourTargets false
  have hor := hdecides (required false) (hreached _ (required_reached false)) 5 (resolved false).2
    (fun x _ => never_mistaken fourTargets x.1 x.2) (resolved_ends false) .build (text "y") hseen
  exact ⟨hseen, hor.resolve_left (by decide)⟩

/-- With `halt` the failure of `x` is taken for one of `t`, and `y` keeps a provider that has failed. -/
theorem y_is_left_undecided :
    Reaches (step true fourTargets.toDataCache) (Heeds true fourTargets.toDataCache) .init (required true) ∧
      add_unresolved true fourTargets.toDataCache false 5 (required true) = some (.ok (), (resolved true).2) ∧
      Seen (resolved true).2 .build (text "y") ∧
      ¬(fourTargets.ignored (text "y") = true ∨ text "y" ∈ (resolved true).2.failed_deps .build ∨
        ∃ fn ∈ (resolved true).2.providers .build (text "y"), fn ∉ (resolved true).2.failed_fns) := by
  refine ⟨required_reached true, resolved_ends true, ?_, ?_⟩
  · unfold Seen
    decide +kernel
  · decide +kernel

end yocto.undecided
