-- The resolution of targets keeps providers sound, as long as it does not add a provider to a
-- target that has failed already, and no task of a file that is added depends on such a
-- target.
import Yocto.Runs
import Yocto.ProviderFailure

open yocto.task_ids yocto.ordered_dict yocto.taskdata yocto.raising yocto.runs
open yocto.provider_failure

namespace yocto.provider_soundness

variable {dc : DataCache} {s t : TaskData} {k : Kind} {fn item target : Text}

/-! ## Seeing targets -/

theorem providers_seen_target (k k' : Kind) (name target : Text) (s : TaskData) :
    (seen_target k s name).providers k' target = s.providers k' target := by
  unfold seen_target
  split
  · rfl
  · rename_i hnew
    have hset : s.targets k ++ [(name, [])] = (s.targets k).set name [] := by
      rw [OrderedDict.set, if_neg hnew]
    rw [hset]
    by_cases heq : k' = k ∧ target = name
    · obtain ⟨rfl, rfl⟩ := heq
      rw [providers_set_self, providers_of_not_key hnew]
    · rw [providers_set_other s _ heq]

theorem seen_target_falls (k : Kind) (name : Text) (s : TaskData) :
    Falls s (seen_target k s name) where
  seenfns := by unfold seen_target; split <;> rfl
  depids := by unfold seen_target; split <;> rfl
  taskentries := by unfold seen_target; split <;> rfl
  failed_fns := by unfold seen_target; split <;> exact fun _ h => h
  failed_deps := by unfold seen_target; split <;> exact fun _ _ h => h
  providers k' target := by rw [providers_seen_target]
  unlisted := by unfold seen_target; split <;> exact fun _ h hn => absurd h hn
  deserted := by unfold seen_target; split <;> exact fun _ _ h hn => absurd h hn

/-- What does not fail anything, and adds no provider. -/
structure Touched (s t : TaskData) : Prop where
  seenfns : t.seenfns = s.seenfns
  failed_fns : t.failed_fns = s.failed_fns
  failed_deps : t.failed_deps = s.failed_deps
  depids : t.depids = s.depids
  providers : ∀ k target, t.providers k target = s.providers k target

theorem Touched.refl (s : TaskData) : Touched s s :=
  ⟨rfl, rfl, rfl, rfl, fun _ _ => rfl⟩

theorem Touched.trans {u : TaskData} (h : Touched s t) (h' : Touched t u) : Touched s u where
  seenfns := h'.seenfns.trans h.seenfns
  failed_fns := h'.failed_fns.trans h.failed_fns
  failed_deps := h'.failed_deps.trans h.failed_deps
  depids := h'.depids.trans h.depids
  providers k target := (h'.providers k target).trans (h.providers k target)

@[simp] theorem seen_target_failed_deps (k : Kind) (name : Text) (s : TaskData) :
    (seen_target k s name).failed_deps = s.failed_deps := by
  unfold seen_target
  split <;> rfl

@[simp] theorem seen_target_failed_fns (k : Kind) (name : Text) (s : TaskData) :
    (seen_target k s name).failed_fns = s.failed_fns := by
  unfold seen_target
  split <;> rfl

theorem seen_target_touched (k : Kind) (name : Text) (s : TaskData) :
    Touched s (seen_target k s name) where
  seenfns := (seen_target_falls k name s).seenfns
  failed_fns := seen_target_failed_fns k name s
  failed_deps := seen_target_failed_deps k name s
  depids := (seen_target_falls k name s).depids
  providers k' target := providers_seen_target k k' name target s

theorem seen_targets_touched (k : Kind) (ids : List (Text × Text)) (s : TaskData) :
    Touched s (ids.foldl (fun s dep => seen_target k s dep.1) s) ∧
      (ids.foldl (fun s dep => seen_target k s dep.1) s).taskentries = s.taskentries := by
  induction ids generalizing s with
  | nil => exact ⟨Touched.refl s, rfl⟩
  | cons dep ids ih =>
    obtain ⟨htouched, hentries⟩ := ih (seen_target k s dep.1)
    exact ⟨(seen_target_touched k dep.1 s).trans htouched,
      hentries.trans (seen_target_falls k dep.1 s).taskentries⟩

theorem check_deps_falls (fn : Text) (k : Kind) (deps : List Text) (htidy : Tidy s) :
    Falls s (check_deps fn k deps s).1 ∧
      if ∃ dep ∈ deps, dep ∈ s.failed_deps k then
        (check_deps fn k deps s).2 = true ∧ fn ∈ (check_deps fn k deps s).1.failed_fns
      else (check_deps fn k deps s).2 = false ∧
        (check_deps fn k deps s).1.failed_fns = s.failed_fns ∧
        (check_deps fn k deps s).1.failed_deps = s.failed_deps := by
  induction deps generalizing s with
  | nil => exact ⟨Falls.refl s, by simp [check_deps]⟩
  | cons dep deps ih =>
    have hseen := seen_target_falls k dep s
    have htidy' := htidy.falls hseen
    unfold check_deps
    dsimp only
    by_cases hfailed : dep ∈ s.failed_deps k
    · have hfail := fail_fn_falls htidy' fn
      have hex : ∃ d ∈ dep :: deps, d ∈ s.failed_deps k := ⟨dep, List.mem_cons_self, hfailed⟩
      simp only [seen_target_failed_deps, hfailed, if_true, hex, true_and]
      exact ⟨hseen.trans hfail.1, hfail.2⟩
    · obtain ⟨hfall, hor⟩ := ih htidy'
      simp only [seen_target_failed_deps, hfailed, if_false, seen_target_failed_fns,
        List.mem_cons, exists_eq_or_imp, false_or] at hor ⊢
      exact ⟨hseen.trans hfall, hor⟩

/-! ## The entries of a new file -/

/-- An entry depends on what the texts of its task name. -/
def Written (dc : DataCache) (fn task : Text) (x : Text × TaskEntry) : Prop :=
  x.1 = tid_of fn task ∧ ∀ k, ∀ dep ∈ x.2.depends k,
    dep ∈ (parse_deps (dc.task_deps k fn task)).getD []

theorem handle_deps_some {task : Text} (h : handle_deps dc fn task k s = some t) :
    Touched s t ∧ ∃ ids, parse_deps (dc.task_deps k fn task) = some ids ∧
      t.taskentries = s.taskentries.set (tid_of fn task)
        ⟨Function.update ((s.taskentries.get? (tid_of fn task)).getD ⟨fun _ => []⟩).depends k
          (((s.taskentries.get? (tid_of fn task)).getD ⟨fun _ => []⟩).depends k ++ ids)⟩ := by
  unfold handle_deps at h
  obtain ⟨ids, hids, h⟩ := Option.bind_eq_some_iff.mp h
  obtain rfl := Option.some.inj h
  obtain ⟨htouched, hentries⟩ := seen_targets_touched k ids s
  refine ⟨⟨htouched.seenfns, htouched.failed_fns, htouched.failed_deps, htouched.depids,
    htouched.providers⟩, ids, hids, ?_⟩
  dsimp only
  rw [hentries]

theorem add_task_some {task : Text} (h : add_task dc fn s task = some t) :
    Touched s t ∧ ∀ x ∈ t.taskentries, x ∈ s.taskentries ∨ Written dc fn task x := by
  unfold add_task at h
  obtain ⟨u, hbuild, hrun⟩ := Option.bind_eq_some_iff.mp h
  obtain ⟨htouched₁, ids₁, hids₁, hentries₁⟩ := handle_deps_some hbuild
  obtain ⟨htouched₂, ids₂, hids₂, hentries₂⟩ := handle_deps_some hrun
  rw [OrderedDict.get?_set_self] at hentries₁
  rw [hentries₁, OrderedDict.get?_set_self] at hentries₂
  simp only [Option.getD_some, List.nil_append] at hentries₁ hentries₂
  constructor
  · exact ⟨htouched₂.seenfns.trans htouched₁.seenfns,
      htouched₂.failed_fns.trans htouched₁.failed_fns,
      htouched₂.failed_deps.trans htouched₁.failed_deps,
      htouched₂.depids.trans htouched₁.depids,
      fun k target => (htouched₂.providers k target).trans (htouched₁.providers k target)⟩
  · intro x hx
    rw [hentries₂] at hx
    rcases OrderedDict.mem_of_mem_set hx with hx | rfl
    · rcases OrderedDict.mem_of_mem_set hx with hx | rfl
      · rcases OrderedDict.mem_of_mem_set hx with hx | rfl
        · exact Or.inl hx
        · exact Or.inr ⟨rfl, by simp⟩
      · refine Or.inr ⟨rfl, ?_⟩
        intro k dep hdep
        cases k with
        | build => simpa [hids₁] using hdep
        | run => simp at hdep
    · refine Or.inr ⟨rfl, ?_⟩
      intro k dep hdep
      cases k with
      | build => simpa [hids₁] using hdep
      | run => simpa [hids₂] using hdep

theorem add_tasks_loop {tasks : List Text} (h : tasks.foldlM (add_task dc fn) s = some t) :
    Touched s t ∧
      ∀ x ∈ t.taskentries, x ∈ s.taskentries ∨ ∃ task ∈ tasks, Written dc fn task x := by
  induction tasks generalizing s with
  | nil =>
    obtain rfl := Option.some.inj h
    exact ⟨Touched.refl s, fun x hx => Or.inl hx⟩
  | cons task tasks ih =>
    rw [List.foldlM_cons] at h
    obtain ⟨u, hfirst, hrest⟩ := Option.bind_eq_some_iff.mp h
    obtain ⟨htouched, hentries⟩ := add_task_some hfirst
    obtain ⟨htouched', hentries'⟩ := ih hrest
    refine ⟨htouched.trans htouched', ?_⟩
    intro x hx
    rcases hentries' x hx with hx | ⟨task', htask', hwritten⟩
    · rcases hentries x hx with hx | hwritten
      · exact Or.inl hx
      · exact Or.inr ⟨task, List.mem_cons_self, hwritten⟩
    · exact Or.inr ⟨task', List.mem_cons_of_mem task htask', hwritten⟩

/-- The loops over the tasks of a file and over its dependencies only add entries of that file. -/
structure Entered (dc : DataCache) (fn : Text) (s t : TaskData) : Prop where
  seenfns : t.seenfns = s.seenfns ++ [fn]
  failed_fns : t.failed_fns = s.failed_fns
  failed_deps : t.failed_deps = s.failed_deps
  providers : ∀ k target, t.providers k target = s.providers k target
  depids : ∀ k, ∀ x ∈ t.depids k, x ∈ s.depids k ∨ x = (fn, dc.deps k fn)
  taskentries : ∀ x ∈ t.taskentries, x ∈ s.taskentries ∨
    ∃ task ∈ dc.tasks fn, Written dc fn task x

/-- A file depends on a failed target. -/
def Hit (dc : DataCache) (s : TaskData) (fn : Text) : Prop :=
  ∃ k, ∃ dep ∈ dc.deps k fn, dep ∈ s.failed_deps k

instance : Decidable (Hit dc s fn) :=
  inferInstanceAs (Decidable (∃ k, ∃ dep ∈ dc.deps k fn, dep ∈ s.failed_deps k))

theorem set_depids_entered {u : TaskData} (htouched : Touched u t) (hentered : Entered dc fn s t)
    (hnew : ∀ k, fn ∉ (u.depids k).map Prod.fst) :
    Entered dc fn s (set_depids dc fn .run (set_depids dc fn .build t)) ∧
      ∀ k, ((set_depids dc fn .run (set_depids dc fn .build t)).depids k).get? fn =
        some (dc.deps k fn) := by
  have hnew' : ∀ k, fn ∉ (t.depids k).map Prod.fst := by
    rw [htouched.depids]
    exact hnew
  have hset : ∀ k, (set_depids dc fn .run (set_depids dc fn .build t)).depids k =
      (t.depids k).set fn (dc.deps k fn) := by
    have hbuild := hnew' .build
    have hrun := hnew' .run
    intro k
    cases k <;> simp [set_depids, hbuild, hrun]
  constructor
  · constructor
    · rw [← hentered.seenfns]
      unfold set_depids
      split <;> split <;> rfl
    · rw [← hentered.failed_fns]
      unfold set_depids
      split <;> split <;> rfl
    · rw [← hentered.failed_deps]
      unfold set_depids
      split <;> split <;> rfl
    · intro k target
      rw [← hentered.providers]
      unfold set_depids
      split <;> split <;> rfl
    · intro k x hx
      rw [hset] at hx
      rcases OrderedDict.mem_of_mem_set hx with hx | rfl
      · exact hentered.depids k x hx
      · exact Or.inr rfl
    · intro x hx
      apply hentered.taskentries x
      revert hx
      unfold set_depids
      split <;> split <;> exact id
  · intro k
    rw [hset, OrderedDict.get?_set_self]

theorem add_tasks_new (htidy : Tidy s) (hseen : fn ∉ s.seenfns)
    (hnew : ∀ k, fn ∉ (s.depids k).map Prod.fst) (h : add_tasks dc fn s = some t) :
    ∃ e, Entered dc fn s e ∧ Falls e t ∧
      if Hit dc s fn then fn ∈ t.failed_fns
      else t.failed_fns = s.failed_fns ∧ t.failed_deps = s.failed_deps := by
  have hgood : fn ∉ s.failed_fns := by
    intro hfailed
    simp [add_tasks, hfailed] at h
  rw [add_tasks, if_neg hgood, if_neg hseen] at h
  obtain ⟨u, htasks, h⟩ := Option.bind_eq_some_iff.mp h
  obtain ⟨htouched, hentries⟩ := add_tasks_loop htasks
  have hentered : Entered dc fn s u := by
    constructor
    · exact htouched.seenfns
    · exact htouched.failed_fns
    · exact htouched.failed_deps
    · exact htouched.providers
    · intro k x hx
      rw [htouched.depids] at hx
      exact Or.inl hx
    · exact hentries
  obtain ⟨hentered, hget⟩ := set_depids_entered htouched hentered hnew
  dsimp only at h
  generalize set_depids dc fn .run (set_depids dc fn .build u) = e at h hentered hget
  simp only [hget, Option.getD_some] at h
  have htidy' : Tidy e := by
    intro k target
    rw [hentered.providers]
    exact htidy k target
  refine ⟨e, hentered, ?_⟩
  obtain ⟨hbuild, hor⟩ := check_deps_falls fn .build (dc.deps .build fn) htidy'
  rw [hentered.failed_deps] at hor
  by_cases hhit : ∃ dep ∈ dc.deps .build fn, dep ∈ s.failed_deps .build
  · rw [if_pos hhit] at hor
    have hHit : Hit dc s fn := ⟨.build, hhit⟩
    rw [if_pos hHit]
    split at h
    · rename_i t' hcheck
      obtain rfl := Option.some.inj h
      rw [hcheck] at hbuild hor
      exact ⟨hbuild, hor.2⟩
    · rename_i t' hcheck
      rw [hcheck] at hor
      cases hor.1
  · rw [if_neg hhit] at hor
    split at h
    · rename_i t' hcheck
      rw [hcheck] at hor
      cases hor.1
    · rename_i t' hcheck
      obtain rfl := Option.some.inj h
      rw [hcheck] at hbuild hor
      obtain ⟨-, hfns, hdeps⟩ := hor
      obtain ⟨hrun, hor'⟩ := check_deps_falls fn .run (dc.deps .run fn)
        (htidy'.falls hbuild)
      have hget' : (t'.depids .run).get? fn = some (dc.deps .run fn) := by
        have hsame := hbuild.depids
        dsimp only at hsame
        rw [hsame]
        exact hget .run
      dsimp only at hfns hdeps hrun hor'
      rw [hdeps] at hor'
      rw [hget', Option.getD_some]
      refine ⟨hbuild.trans hrun, ?_⟩
      by_cases hhit' : ∃ dep ∈ dc.deps .run fn, dep ∈ s.failed_deps .run
      · have hHit : Hit dc s fn := ⟨.run, hhit'⟩
        rw [if_pos hhit'] at hor'
        rw [if_pos hHit]
        exact hor'.2
      · have hHit : ¬ Hit dc s fn := by
          rintro ⟨k, hk⟩
          cases k with
          | build => exact hhit hk
          | run => exact hhit' hk
        rw [if_neg hhit'] at hor'
        rw [if_neg hHit]
        exact ⟨hor'.2.1.trans (hfns.trans hentered.failed_fns), hor'.2.2⟩

/-! ## Adding a provider -/

theorem mem_providers_add_target {k' : Kind} {g : Text}
    (h : g ∈ (add_target k fn item s).providers k' target) :
    g ∈ s.providers k' target ∨ (g = fn ∧ k' = k ∧ target = item) := by
  unfold add_target at h
  split at h
  · exact Or.inl h
  · by_cases heq : k' = k ∧ target = item
    · obtain ⟨rfl, rfl⟩ := heq
      rw [providers_set_self] at h
      simpa using h
    · rw [providers_set_other s _ heq] at h
      exact Or.inl h

theorem add_target_touched (k : Kind) (fn item : Text) (s : TaskData) :
    (add_target k fn item s).seenfns = s.seenfns ∧
      (add_target k fn item s).failed_fns = s.failed_fns ∧
      (add_target k fn item s).failed_deps = s.failed_deps ∧
      (add_target k fn item s).depids = s.depids ∧
      (add_target k fn item s).taskentries = s.taskentries := by
  unfold add_target
  split <;> exact ⟨rfl, rfl, rfl, rfl, rfl⟩

theorem add_target_tidy (htidy : Tidy s) : Tidy (add_target k fn item s) := by
  intro k' target
  unfold add_target
  split
  · exact htidy k' target
  · rename_i hnot
    by_cases heq : k' = k ∧ target = item
    · obtain ⟨rfl, rfl⟩ := heq
      rw [providers_set_self]
      exact List.nodup_append.mpr ⟨htidy k' target, List.nodup_singleton fn, by
        intro a ha b hb heq
        rw [List.mem_singleton.mp hb] at heq
        exact hnot (heq ▸ ha)⟩
    · rw [providers_set_other s _ heq]
      exact htidy k' target

/-- What holds in every run: no failed file is in a list. -/
structure Listed (dc : DataCache) (s : TaskData) : Prop where
  tidy : Tidy s
  unlisted : ∀ fn ∈ s.failed_fns, Unlisted s fn
  seen : ∀ k, ∀ x ∈ s.depids k, x.1 ∈ s.seenfns
  provided : ∀ target, s.providers .build target ≠ [] → dc.provided target

theorem Listed.falls (h : Listed dc s) (hf : Falls s t) : Listed dc t where
  tidy := h.tidy.falls hf
  unlisted := by
    intro fn hin
    by_cases hold : fn ∈ s.failed_fns
    · exact (h.unlisted fn hold).falls hf
    · exact hf.unlisted fn hin hold
  seen := by
    rw [hf.depids, hf.seenfns]
    exact h.seen
  provided := by
    intro target hne
    apply h.provided target
    intro hnil
    exact hne (providers_nil_falls hf hnil)

theorem Listed.add_target (h : Listed dc s) (hgood : fn ∉ s.failed_fns)
    (hprovided : k = .build → dc.provided item) : Listed dc (add_target k fn item s) := by
  obtain ⟨hseenfns, hfns, -, hdepids, -⟩ := add_target_touched k fn item s
  constructor
  · exact add_target_tidy h.tidy
  · intro g hg k' target hin
    rw [hfns] at hg
    rcases mem_providers_add_target hin with hin | ⟨rfl, -, -⟩
    · exact h.unlisted g hg k' target hin
    · exact hgood hg
  · rw [hdepids, hseenfns]
    exact h.seen
  · intro target hne
    obtain ⟨g, hg⟩ := List.exists_mem_of_ne_nil _ hne
    rcases mem_providers_add_target hg with hin | ⟨-, hk, rfl⟩
    · exact h.provided target (List.ne_nil_of_mem hin)
    · exact hprovided hk.symm

theorem Listed.entered {e : TaskData} (h : Listed dc s) (he : Entered dc fn s e) : Listed dc e where
  tidy k target := by rw [he.providers]; exact h.tidy k target
  unlisted := by
    intro g hg k target
    rw [he.failed_fns] at hg
    rw [he.providers]
    exact h.unlisted g hg k target
  seen := by
    intro k x hx
    rw [he.seenfns]
    rcases he.depids k x hx with hx | rfl
    · exact List.mem_append_left _ (h.seen k x hx)
    · simp
  provided := by
    intro target
    rw [he.providers]
    exact h.provided target

theorem provide_cases (h : Listed dc s) (hok : provide dc k item s fn = .ok t) :
    (fn ∈ s.failed_fns ∧ t = s) ∨
    (fn ∉ s.failed_fns ∧ fn ∈ s.seenfns ∧ t = add_target k fn item s) ∨
    (fn ∉ s.failed_fns ∧ fn ∉ s.seenfns ∧ ∃ e, Entered dc fn (add_target k fn item s) e ∧
      Falls e t ∧ if Hit dc s fn then fn ∈ t.failed_fns
        else t.failed_fns = s.failed_fns ∧ t.failed_deps = s.failed_deps) := by
  obtain ⟨hseenfns, hfns, hdeps, hdepids, -⟩ := add_target_touched k fn item s
  unfold provide at hok
  split at hok
  · rename_i hfailed
    exact Or.inl ⟨hfailed, (Except.ok.inj hok).symm⟩
  · rename_i hgood
    split at hok
    · rename_i t' hadd
      obtain rfl := Except.ok.inj hok
      by_cases hseen : fn ∈ s.seenfns
      · refine Or.inr (Or.inl ⟨hgood, hseen, ?_⟩)
        rw [add_tasks, hfns, hseenfns, if_neg hgood, if_pos hseen] at hadd
        exact (Option.some.inj hadd).symm
      · have hnew : ∀ k', fn ∉ ((add_target k fn item s).depids k').map Prod.fst := by
          intro k' hin
          rw [hdepids] at hin
          obtain ⟨x, hx, rfl⟩ := List.mem_map.mp hin
          exact hseen (h.seen k' x hx)
        obtain ⟨e, hentered, hfalls, hor⟩ := add_tasks_new (add_target_tidy h.tidy)
          (by rw [hseenfns]; exact hseen) hnew hadd
        have hhit : Hit dc (add_target k fn item s) fn ↔ Hit dc s fn := by
          unfold Hit
          rw [hdeps]
        simp only [hhit, hfns, hdeps] at hor
        exact Or.inr (Or.inr ⟨hgood, hseen, e, hentered, hfalls, hor⟩)
    · cases hok

theorem Listed.provide (h : Listed dc s) (hprovided : k = .build → dc.provided item)
    (hok : provide dc k item s fn = .ok t) : Listed dc t := by
  rcases provide_cases h hok with ⟨-, rfl⟩ | ⟨hgood, -, rfl⟩ | ⟨hgood, -, e, hentered, hfalls, -⟩
  · exact h
  · exact h.add_target hgood hprovided
  · exact ((h.add_target hgood hprovided).entered hentered).falls hfalls

/-! ## What is kept when a turn does no harm -/

/-- No task of the file depends on a failed target. -/
def TasksFree (dc : DataCache) (s : TaskData) (fn : Text) : Prop :=
  ∀ task ∈ dc.tasks fn, ∀ k, ∀ dep ∈ (parse_deps (dc.task_deps k fn task)).getD [],
    dep.1 ∉ s.failed_deps k

/-- A turn of the loop over the providers does no harm when the file has failed before, or when it
is known and the target has not failed, or when it is new, without a colon in a task name, and
either fails at once or meets no failed target. -/
def Harmless (dc : DataCache) (k : Kind) (item : Text) (s : TaskData) (fn : Text) : Prop :=
  fn ∈ s.failed_fns ∨
  (fn ∈ s.seenfns ∧ item ∉ s.failed_deps k) ∨
  (fn ∉ s.seenfns ∧ (∀ task ∈ dc.tasks fn, ':' ∉ task) ∧
    (Hit dc s fn ∨ (TasksFree dc s fn ∧ item ∉ s.failed_deps k)))

/-- The invariant of the runs in which no turn does harm. -/
structure Sound (dc : DataCache) (s : TaskData) : Prop extends Listed dc s where
  empty : ∀ k, ∀ target ∈ s.failed_deps k, s.providers k target = []
  files : ∀ k, ∀ x ∈ s.depids k, x.1 ∉ s.failed_fns → ∀ dep ∈ x.2, dep ∉ s.failed_deps k
  tasks : ∀ x ∈ s.taskentries, fn_of_tid x.1 ∉ s.failed_fns → ∀ k, ∀ dep ∈ x.2.depends k,
    dep.1 ∉ s.failed_deps k
  colons : ∀ fn ∈ s.seenfns, ∀ task ∈ dc.tasks fn, ':' ∉ task

theorem Sound.falls (h : Sound dc s) (hf : Falls s t) : Sound dc t where
  toListed := h.toListed.falls hf
  empty := by
    intro k target hin
    by_cases hold : target ∈ s.failed_deps k
    · exact providers_nil_falls hf (h.empty k target hold)
    · exact (hf.deserted k target hin hold).1
  files := by
    intro k x hx hgood dep hdep hin
    rw [hf.depids] at hx
    by_cases hold : dep ∈ s.failed_deps k
    · exact h.files k x hx (fun hfailed => hgood (hf.failed_fns hfailed)) dep hdep hold
    · rw [← hf.depids] at hx
      exact hgood ((hf.deserted k dep hin hold).2.files x hx hdep)
  tasks := by
    intro x hx hgood k dep hdep hin
    rw [hf.taskentries] at hx
    by_cases hold : dep.1 ∈ s.failed_deps k
    · exact h.tasks x hx (fun hfailed => hgood (hf.failed_fns hfailed)) k dep hdep hold
    · rw [← hf.taskentries] at hx
      exact hgood ((hf.deserted k dep.1 hin hold).2.tasks x hx dep hdep rfl)
  colons := by
    rw [hf.seenfns]
    exact h.colons

theorem fn_of_tid_tid_of {task : Text} (h : ':' ∉ task) : fn_of_tid (tid_of fn task) = fn := by
  have hkept : ∀ c ∈ task.reverse, (fun c => decide (c ≠ ':')) c = true := by
    intro c hc
    simp only [decide_eq_true_eq]
    rintro rfl
    exact h (List.mem_reverse.mp hc)
  have hrev : (fn ++ ':' :: task).reverse = task.reverse ++ ':' :: fn.reverse := by simp
  unfold fn_of_tid tid_of
  rw [if_pos (by simp), hrev, List.dropWhile_append_of_pos hkept]
  simp

theorem Sound.add_target (h : Sound dc s) (hgood : fn ∉ s.failed_fns) (hitem : item ∉ s.failed_deps k)
    (hprovided : k = .build → dc.provided item) : Sound dc (add_target k fn item s) := by
  obtain ⟨hseenfns, hfns, hdeps, hdepids, hentries⟩ := add_target_touched k fn item s
  refine ⟨h.toListed.add_target hgood hprovided, ?_, ?_, ?_, ?_⟩
  · intro k' target hin
    rw [hdeps] at hin
    apply List.eq_nil_iff_forall_not_mem.mpr
    intro g hg
    rcases mem_providers_add_target hg with hg | ⟨-, rfl, rfl⟩
    · rw [h.empty k' target hin] at hg
      exact List.not_mem_nil hg
    · exact hitem hin
  · rw [hdepids, hfns, hdeps]
    exact h.files
  · rw [hentries, hfns, hdeps]
    exact h.tasks
  · rw [hseenfns]
    exact h.colons

theorem Sound.new_file {e : TaskData} (h : Sound dc s) (hgood : fn ∉ s.failed_fns)
    (hcolons : ∀ task ∈ dc.tasks fn, ':' ∉ task)
    (hok : Hit dc s fn ∨ (TasksFree dc s fn ∧ item ∉ s.failed_deps k))
    (hprovided : k = .build → dc.provided item)
    (he : Entered dc fn (taskdata.add_target k fn item s) e) (hf : Falls e t)
    (hhit : Hit dc s fn → fn ∈ t.failed_fns) : Sound dc t := by
  obtain ⟨hseenfns, hfns, hdeps, hdepids, hentries⟩ := add_target_touched k fn item s
  have hlisted := ((h.toListed.add_target hgood hprovided).entered he).falls hf
  have hefns : e.failed_fns = s.failed_fns := he.failed_fns.trans hfns
  have hedeps : e.failed_deps = s.failed_deps := he.failed_deps.trans hdeps
  refine ⟨hlisted, ?_, ?_, ?_, ?_⟩
  · intro k' target hin
    by_cases hold : target ∈ e.failed_deps k'
    · rw [hedeps] at hold
      apply List.eq_nil_iff_forall_not_mem.mpr
      intro g hg
      have hg' := (hf.providers k' target).subset hg
      rw [he.providers] at hg'
      rcases mem_providers_add_target hg' with hg' | ⟨rfl, rfl, rfl⟩
      · rw [h.empty k' target hold] at hg'
        exact List.not_mem_nil hg'
      · -- the file is added to a failed target, so it fails at once
        rcases hok with hit | ⟨-, hnot⟩
        · exact hlisted.unlisted g (hhit hit) k' target hg
        · exact hnot hold
    · exact (hf.deserted k' target hin hold).1
  · intro k' x hx hxgood dep hdep hin
    by_cases hold : dep ∈ e.failed_deps k'
    · rw [hedeps] at hold
      rw [hf.depids] at hx
      rcases he.depids k' x hx with hx | rfl
      · rw [hdepids] at hx
        apply h.files k' x hx _ dep hdep hold
        intro hfailed
        apply hxgood
        apply hf.failed_fns
        rw [hefns]
        exact hfailed
      · exact hxgood (hhit ⟨k', dep, hdep, hold⟩)
    · exact hxgood ((hf.deserted k' dep hin hold).2.files x hx hdep)
  · intro x hx hxgood k' dep hdep hin
    by_cases hold : dep.1 ∈ e.failed_deps k'
    · rw [hedeps] at hold
      rw [hf.taskentries] at hx
      rcases he.taskentries x hx with hx | ⟨task, htask, hkey, hwritten⟩
      · rw [hentries] at hx
        apply h.tasks x hx _ k' dep hdep hold
        intro hfailed
        apply hxgood
        apply hf.failed_fns
        rw [hefns]
        exact hfailed
      · rw [hkey, fn_of_tid_tid_of (hcolons task htask)] at hxgood
        rcases hok with hit | ⟨hfree, -⟩
        · exact hxgood (hhit hit)
        · exact hfree task htask k' dep (hwritten k' dep hdep) hold
    · exact hxgood ((hf.deserted k' dep.1 hin hold).2.tasks x hx dep hdep rfl)
  · intro g hg task htask
    rw [hf.seenfns, he.seenfns, hseenfns] at hg
    rcases List.mem_append.mp hg with hg | hg
    · exact h.colons g hg task htask
    · rw [List.mem_singleton.mp hg] at htask
      exact hcolons task htask

theorem Sound.provide (h : Sound dc s) (hharmless : Harmless dc k item s fn)
    (hprovided : k = .build → dc.provided item) (hok : provide dc k item s fn = .ok t) :
    Sound dc t := by
  rcases provide_cases h.toListed hok with ⟨-, rfl⟩ | ⟨hgood, hseen, rfl⟩ |
    ⟨hgood, hnew, e, hentered, hfalls, hor⟩
  · exact h
  · rcases hharmless with hfailed | ⟨-, hitem⟩ | ⟨hnew, -, -⟩
    · exact absurd hfailed hgood
    · exact h.add_target hgood hitem hprovided
    · exact absurd hseen hnew
  · rcases hharmless with hfailed | ⟨hseen, -⟩ | ⟨-, hcolons, hok'⟩
    · exact absurd hfailed hgood
    · exact absurd hseen hnew
    · apply h.new_file hgood hcolons hok' hprovided hentered hfalls
      intro hhit
      rwa [if_pos hhit] at hor

/-! ## Whole calls -/

/-- The files that a call goes through, on each side. -/
def candidates (dc : DataCache) : Kind → Text → TaskData → Except ProviderError (List Text)
  | .build => build_candidates dc
  | .run => run_candidates dc

/-- `add_provider_internal` or `add_rprovider`. -/
def add_item (dc : DataCache) (k : Kind) (item : Text) (s : TaskData) :
    Except ProviderError TaskData := do
  let eligible ← candidates dc k item s
  eligible.foldlM (provide dc k item) s

theorem candidates_provided {eligible : List Text} (h : candidates dc .build item s = .ok eligible)
    (hin : fn ∈ eligible) : dc.provided item := by
  change build_candidates dc item s = .ok eligible at h
  unfold build_candidates at h
  split at h
  · obtain rfl := Except.ok.inj h
    cases hin
  · split at h
    · cases h
    · rename_i hprovided
      simpa using hprovided

theorem add_item_error {e : ProviderError} (hlisted : Listed dc s) (hfatal : e ≠ .fatal)
    (h : add_item dc k item s = .error e) : s.providers k item = [] := by
  unfold add_item at h
  cases hcand : candidates dc k item s with
  | ok eligible =>
    rw [hcand] at h
    obtain ⟨t, fn, hturn⟩ := foldlM_error h
    unfold provide at hturn
    split at hturn
    · cases hturn
    · split at hturn
      · cases hturn
      · exact absurd (Except.error.inj hturn).symm hfatal
  | error e' =>
    by_contra hne
    cases k with
    | build =>
      change build_candidates dc item s = .error e' at hcand
      unfold build_candidates at hcand
      rw [if_neg (not_not_intro (hlisted.provided item hne)), if_pos hne] at hcand
      split at hcand <;> cases hcand
    | run =>
      change run_candidates dc item s = .error e' at hcand
      unfold run_candidates at hcand
      rw [if_pos hne] at hcand
      split at hcand <;> cases hcand

/-! ## Runs of calls -/

/-- What each turn of a call meets. -/
def ProvidesOk (dc : DataCache) (ok : Kind → Text → TaskData → Text → Prop) (k : Kind) (item : Text)
    (s : TaskData) : Prop :=
  match candidates dc k item s with
  | .ok eligible => Along (provide dc k item) (ok k item) eligible s
  | .error _ => True

/-- The same of the calls that `add_unresolved` makes. -/
def ResolvesOk (dc : DataCache) (ok : Kind → Text → TaskData → Text → Prop)
    (allowincomplete : Bool) : Nat → TaskData → Prop
  | 0, _ => True
  | turns + 1, s =>
    Along (resolve_build dc allowincomplete) (fun acc target => ProvidesOk dc ok .build target acc.1)
      (unresolved dc .build s) (s, 0) ∧
    match (unresolved dc .build s).foldlM (resolve_build dc allowincomplete) (s, 0) with
    | .error _ => True
    | .ok (s, added) =>
      Along (resolve_run dc) (fun acc target => ProvidesOk dc ok .run target acc.1)
        (unresolved dc .run s) (s, added) ∧
      match (unresolved dc .run s).foldlM (resolve_run dc) (s, added) with
      | .error _ => True
      | .ok (s, added) => added = 0 ∨ ResolvesOk dc ok allowincomplete turns s

def StepOk (dc : DataCache) (ok : Kind → Text → TaskData → Text → Prop) (s : TaskData) : Op → Prop
  | .add_provider item => ProvidesOk dc ok .build item s
  | .add_rprovider item => ProvidesOk dc ok .run item s
  | .add_unresolved allowincomplete turns => ResolvesOk dc ok allowincomplete turns s

/-- Failures and the turns that meet `ok` keep `I`. -/
structure Kept (dc : DataCache) (ok : Kind → Text → TaskData → Text → Prop) (I : TaskData → Prop) :
    Prop where
  listed : ∀ {s}, I s → Listed dc s
  falls : ∀ {s t}, I s → Falls s t → I t
  provide : ∀ {k item s fn t}, I s → ok k item s fn → (k = .build → dc.provided item) →
    provide dc k item s fn = .ok t → I t
  external : ∀ {s target}, I s → I (mark_external_target target s)

section
variable {ok : Kind → Text → TaskData → Text → Prop} {I : TaskData → Prop} (hkept : Kept dc ok I)
include hkept

theorem Kept.add_item (hI : I s) (hok : ProvidesOk dc ok k item s)
    (h : add_item dc k item s = .ok t) : I t := by
  obtain ⟨eligible, hcand, hloop⟩ := bind_ok h
  unfold ProvidesOk at hok
  rw [hcand] at hok
  refine hok.invariant hI ?_ hloop
  intro s fn hfn t hI hok hturn
  apply hkept.provide hI hok _ hturn
  rintro rfl
  exact candidates_provided hcand hfn

theorem Kept.remove_target (hI : I s) (hnil : s.providers k target = []) :
    I (remove_target fail_fn k target s) :=
  hkept.falls hI (remove_target_falls (fail_fn_fails _) (hkept.listed hI).tidy le_rfl hnil).1

theorem Kept.resolve_build {allowincomplete : Bool} {acc acc' : TaskData × Nat} (hI : I acc.1)
    (hok : ProvidesOk dc ok .build target acc.1)
    (h : resolve_build dc allowincomplete acc target = .ok acc') : I acc'.1 := by
  unfold taskdata.resolve_build at h
  split at h
  · rename_i t hadd
    obtain rfl := Except.ok.inj h
    exact hkept.add_item hI hok hadd
  · rename_i hadd
    obtain rfl := Except.ok.inj h
    have hnil := add_item_error (k := .build) (hkept.listed hI) (by decide) hadd
    dsimp only
    split
    · exact hI
    · exact hkept.remove_target hI hnil
  · cases h

theorem Kept.resolve_run {acc acc' : TaskData × Nat} (hI : I acc.1)
    (hok : ProvidesOk dc ok .run target acc.1) (h : resolve_run dc acc target = .ok acc') :
    I acc'.1 := by
  unfold taskdata.resolve_run at h
  split at h
  · rename_i t hadd
    obtain rfl := Except.ok.inj h
    exact hkept.add_item hI hok hadd
  · cases h
  · rename_i e hne hadd
    obtain rfl := Except.ok.inj h
    exact hkept.remove_target hI (add_item_error (k := .run) (hkept.listed hI) hne hadd)

theorem Kept.add_unresolved {allowincomplete : Bool} {turns : Nat} (hI : I s)
    (hok : ResolvesOk dc ok allowincomplete turns s)
    (h : add_unresolved dc allowincomplete turns s = some t) : I t := by
  induction turns generalizing s with
  | zero => cases h
  | succ turns ih =>
    unfold taskdata.add_unresolved at h
    unfold ResolvesOk at hok
    obtain ⟨hbuild, hok⟩ := hok
    split at h
    · cases h
    · rename_i s₁ added hloop
      rw [hloop] at hok
      obtain ⟨hrun, hok⟩ := hok
      have hI₁ : I s₁ := hbuild.invariant (I := fun acc => I acc.1) hI
        (fun _ _ _ _ hI hok hturn => hkept.resolve_build hI hok hturn) hloop
      split at h
      · cases h
      · rename_i s₂ added₂ hloop₂
        rw [hloop₂] at hok
        have hI₂ : I s₂ := hrun.invariant (I := fun acc => I acc.1) hI₁
          (fun _ _ _ _ hI hok hturn => hkept.resolve_run hI hok hturn) hloop₂
        split at h
        · obtain rfl := Option.some.inj h
          exact hI₂
        · rename_i hadded
          exact ih hI₂ (hok.resolve_left hadded) h

theorem Kept.step {op : Op} (hI : I s) (hok : StepOk dc ok s op) (h : step dc s op = some t) :
    I t := by
  cases op with
  | add_provider item =>
    have hadded := ok_of_toOption h
    unfold add_provider at hadded
    split at hadded
    · rename_i u hadd
      obtain rfl := Except.ok.inj hadded
      exact hkept.external (hkept.add_item hI hok hadd)
    · rename_i hadd
      obtain rfl := Except.ok.inj hadded
      apply hkept.external
      exact hkept.remove_target hI
        (add_item_error (k := .build) (hkept.listed hI) (by decide) hadd)
    · cases hadded
  | add_rprovider item =>
    unfold taskdata.step at h
    dsimp only at h
    split at h
    · rename_i u hadd
      obtain rfl := Option.some.inj h
      exact hkept.add_item hI hok hadd
    · cases h
    · obtain rfl := Option.some.inj h
      exact hI
  | add_unresolved allowincomplete turns => exact hkept.add_unresolved hI hok h

end

/-! ## Soundness -/

theorem StepOk.of_forall {ok : Kind → Text → TaskData → Text → Prop} (h : ∀ k item s fn, ok k item s fn)
    (s : TaskData) (op : Op) : StepOk dc ok s op := by
  have hprovides : ∀ k item s, ProvidesOk dc ok k item s := by
    intro k item s
    unfold ProvidesOk
    split
    · exact Along.of_forall (h k item) _ s
    · trivial
  cases op with
  | add_provider item => exact hprovides .build item s
  | add_rprovider item => exact hprovides .run item s
  | add_unresolved allowincomplete turns =>
    change ResolvesOk dc ok allowincomplete turns s
    induction turns generalizing s with
    | zero => trivial
    | succ turns ih =>
      refine ⟨Along.of_forall (fun _ _ => hprovides _ _ _) _ _, ?_⟩
      split
      · trivial
      · refine ⟨Along.of_forall (fun _ _ => hprovides _ _ _) _ _, ?_⟩
        split
        · trivial
        · exact Or.inr (ih _)

theorem listed_kept (dc : DataCache) : Kept dc (fun _ _ _ _ => True) (Listed dc) where
  listed h := h
  falls h hf := h.falls hf
  provide h _ hprovided hok := h.provide hprovided hok
  external := by
    intro s target h
    unfold mark_external_target
    split
    · exact h
    · exact ⟨h.tidy, h.unlisted, h.seen, h.provided⟩

theorem sound_kept (dc : DataCache) : Kept dc (Harmless dc) (Sound dc) where
  listed h := h.toListed
  falls h hf := h.falls hf
  provide h hharmless hprovided hok := h.provide hharmless hprovided hok
  external := by
    intro s target h
    unfold mark_external_target
    split
    · exact h
    · exact ⟨⟨h.tidy, h.unlisted, h.seen, h.provided⟩, h.empty, h.files, h.tasks, h.colons⟩

theorem Sound.init (dc : DataCache) : Sound dc TaskData.init := by
  constructor
  · constructor
    · exact fun _ _ => List.nodup_nil
    · simp [TaskData.init]
    · simp [TaskData.init]
    · exact fun _ hne => absurd rfl hne
  · simp [TaskData.init]
  · simp [TaskData.init]
  · simp [TaskData.init]
  · simp [TaskData.init]

/-- The providers are sound: no failed file is in a list, a failed target has no provider, and no
good file depends on a failed target, by itself or through one of its tasks. -/
structure Resolved (dc : DataCache) (s : TaskData) : Prop where
  unlisted : ∀ fn ∈ s.failed_fns, ∀ k target, fn ∉ s.providers k target
  empty : ∀ k, ∀ target ∈ s.failed_deps k, s.providers k target = []
  files : ∀ fn ∈ s.seenfns, fn ∉ s.failed_fns → ∀ k, ∀ dep ∈ ((s.depids k).get? fn).getD [],
    dep ∉ s.failed_deps k
  tasks : ∀ fn ∈ s.seenfns, fn ∉ s.failed_fns → ∀ task ∈ dc.tasks fn,
    ∀ entry ∈ s.taskentries.get? (tid_of fn task), ∀ k, ∀ dep ∈ entry.depends k,
    dep.1 ∉ s.failed_deps k

theorem Sound.resolved (h : Sound dc s) : Resolved dc s where
  unlisted := h.unlisted
  empty := h.empty
  files := by
    intro fn _ hgood k dep hdep
    cases hget : (s.depids k).get? fn with
    | none =>
      rw [hget] at hdep
      exact absurd hdep List.not_mem_nil
    | some deps =>
      rw [hget] at hdep
      exact h.files k (fn, deps) (OrderedDict.mem_of_get? hget) hgood dep hdep
  tasks := by
    intro fn hseen hgood task htask entry hentry
    apply h.tasks (tid_of fn task, entry) (OrderedDict.mem_of_get? hentry)
    rw [fn_of_tid_tid_of (h.colons fn hseen task htask)]
    exact hgood

/-- In no run a failed file is in a provider list. The providers are sound in every run in which no
turn of a loop over providers does harm. -/
theorem resolution_is_sound_without_harm (dc : DataCache) :
    (∀ s, Reaches (step dc) anyStep .init s → ∀ fn ∈ s.failed_fns, ∀ k target,
      fn ∉ s.providers k target) ∧
    ∀ s, Reaches (step dc) (StepOk dc (Harmless dc)) .init s → Resolved dc s := by
  constructor
  · intro s hrun
    have hlisted : Listed dc s := hrun.invariant (Sound.init dc).toListed
      fun s op _ hI _ hstep =>
        (listed_kept dc).step hI (StepOk.of_forall (fun _ _ _ _ => trivial) s op) hstep
    exact hlisted.unlisted
  · intro s hrun
    have hsound : Sound dc s := hrun.invariant (Sound.init dc)
      fun _ _ _ hI hok hstep => (sound_kept dc).step hI hok hstep
    exact hsound.resolved

/-! ## Two runs -/

instance : Decidable (TasksFree dc s fn) :=
  inferInstanceAs (Decidable (∀ task ∈ dc.tasks fn, ∀ k,
    ∀ dep ∈ (parse_deps (dc.task_deps k fn task)).getD [], dep.1 ∉ s.failed_deps k))

instance : Decidable (Harmless dc k item s fn) :=
  inferInstanceAs (Decidable (_ ∨ _ ∨ _))

instance : Decidable (ProvidesOk dc (Harmless dc) k item s) :=
  match h : candidates dc k item s with
  | .ok eligible =>
    decidable_of_iff (Along (provide dc k item) (Harmless dc k item) eligible s)
      (by simp [ProvidesOk, h])
  | .error _ => .isTrue (by simp [ProvidesOk, h])

instance ResolvesOk.instDecidable (allowincomplete : Bool) : ∀ turns s,
    Decidable (ResolvesOk dc (Harmless dc) allowincomplete turns s)
  | 0, _ => .isTrue trivial
  | turns + 1, s =>
    have := ResolvesOk.instDecidable allowincomplete turns
    match h : (unresolved dc .build s).foldlM (resolve_build dc allowincomplete) (s, 0) with
    | .error _ =>
      decidable_of_iff (Along (resolve_build dc allowincomplete)
        (fun acc target => ProvidesOk dc (Harmless dc) .build target acc.1)
        (unresolved dc .build s) (s, 0)) (by simp [ResolvesOk, h])
    | .ok (s₁, added₁) =>
      match h' : (unresolved dc .run s₁).foldlM (resolve_run dc) (s₁, added₁) with
      | .error _ =>
        decidable_of_iff (Along (resolve_build dc allowincomplete)
          (fun acc target => ProvidesOk dc (Harmless dc) .build target acc.1)
          (unresolved dc .build s) (s, 0) ∧ Along (resolve_run dc)
          (fun acc target => ProvidesOk dc (Harmless dc) .run target acc.1)
          (unresolved dc .run s₁) (s₁, added₁)) (by simp [ResolvesOk, h, h'])
      | .ok (s₂, added₂) =>
        decidable_of_iff (Along (resolve_build dc allowincomplete)
          (fun acc target => ProvidesOk dc (Harmless dc) .build target acc.1)
          (unresolved dc .build s) (s, 0) ∧ Along (resolve_run dc)
          (fun acc target => ProvidesOk dc (Harmless dc) .run target acc.1)
          (unresolved dc .run s₁) (s₁, added₁) ∧
          (added₂ = 0 ∨ ResolvesOk dc (Harmless dc) allowincomplete turns s₂))
          (by simp [ResolvesOk, h, h'])

instance (op : Op) : Decidable (StepOk dc (Harmless dc) s op) :=
  match op with
  | .add_provider item => inferInstanceAs (Decidable (ProvidesOk dc (Harmless dc) .build item s))
  | .add_rprovider item => inferInstanceAs (Decidable (ProvidesOk dc (Harmless dc) .run item s))
  | .add_unresolved allowincomplete turns =>
    inferInstanceAs (Decidable (ResolvesOk dc (Harmless dc) allowincomplete turns s))

def threeTargets : DataCache where
  tasks fn := if fn = text "f3" then [text "do_x"] else []
  task_deps k fn _ := if k = .build ∧ fn = text "f3" then text "b:do_y" else []
  deps k fn := if k = .build ∧ fn = text "f1" then [text "b"] else []
  ignored _ := false
  provided item := item ∈ [text "a", text "c"]
  filterProviders item :=
    if item = text "a" then [text "f1", text "f2"]
    else if item = text "c" then [text "f3"] else []
  getRuntimeProviders _ := []
  filterProvidersRunTime _ := ([], 0)

def lateRun : TaskData :=
  (runOk (step threeTargets) (StepOk threeTargets (Harmless threeTargets)) .init
    [.add_provider (text "c"), .add_unresolved false 2]).get (by decide +kernel)

def earlyRun : TaskData :=
  (runAll (step threeTargets) .init
    [.add_provider (text "b"), .add_provider (text "a"), .add_provider (text "c")]).get
    (by decide +kernel)

theorem a_late_failure_is_sound :
    lateRun.failed_fns = [text "f3"] ∧ lateRun.failed_deps .build = [text "b", text "c"] ∧
      Resolved threeTargets lateRun := by
  have hrun : Reaches (step threeTargets) (StepOk threeTargets (Harmless threeTargets)) .init
      lateRun := .of_runOk (Option.some_get _).symm
  exact ⟨by decide +kernel, by decide +kernel,
    (resolution_is_sound_without_harm threeTargets).2 lateRun hrun⟩

/-- Then `f1` fails at once and `a` with it, but `f2` is still added to `a`, and `f3` stays good
although its task depends on `b`. -/
theorem an_early_failure_is_forgotten :
    Reaches (step threeTargets) anyStep .init earlyRun ∧
      earlyRun.failed_deps .build = [text "b", text "a"] ∧
      earlyRun.providers .build (text "a") = [text "f2"] ∧
      text "f3" ∈ earlyRun.seenfns ∧ text "f3" ∉ earlyRun.failed_fns ∧
      ((earlyRun.taskentries.get? (tid_of (text "f3") (text "do_x"))).map (·.depends .build)) =
        some [(text "b", text "do_y")] ∧
      ¬ Resolved threeTargets earlyRun := by
  have hdeps : earlyRun.failed_deps .build = [text "b", text "a"] := by decide +kernel
  have hprov : earlyRun.providers .build (text "a") = [text "f2"] := by decide +kernel
  refine ⟨.of_isSome _, hdeps, hprov, by decide +kernel, by decide +kernel, by decide +kernel, ?_⟩
  intro h
  have hnil := h.empty .build (text "a") (by rw [hdeps]; simp)
  rw [hprov] at hnil
  cases hnil

end yocto.provider_soundness
