-- The outcome of a setscene task is that it is covered or that it is not covered.
-- `summarise_scenequeue_errors` calls a task in both sets a bug.
import Yocto.RunQueueSteps

open yocto.task_ids yocto.ordered_dict yocto.scenequeue yocto.runqueue yocto.runs

namespace yocto.scene_outcomes

variable {Tid Stamp : Type} [DecidableEq Tid]
variable {cfg : Config Tid} {sq : SQData Tid} {w : World Tid Stamp}
variable {s s' : SceneState Tid Stamp} {C N : Finset Tid}

/-! ## The invariant -/

/-- What holds of the setscene tasks in every state of a careful run. -/
structure Outcome (s : SceneState Tid Stamp) : Prop where
  apart : Disjoint s.scenequeue_covered s.scenequeue_notcovered
  entered : ∀ t, s.entered t = if t ∈ s.decided then 1 else 0
  running : s.decided ⊆ s.sq_running
  live_running : s.sq_live ⊆ s.sq_running
  live_open : Disjoint s.sq_live s.scenequeue_covered
  live_kept : ∀ t ∈ s.sq_live, t ∉ s.sq_deferred.map Prod.fst

theorem Outcome.congr (h : Outcome s) (hc : s'.scenequeue_covered = s.scenequeue_covered)
    (hn : s'.scenequeue_notcovered = s.scenequeue_notcovered) (hr : s'.sq_running = s.sq_running)
    (he : s'.entered = s.entered) (hl : s'.sq_live = s.sq_live)
    (hd : ∀ t, t ∈ s'.sq_deferred.map Prod.fst → t ∈ s.sq_deferred.map Prod.fst) : Outcome s' := by
  have hdecided : s'.decided = s.decided := by
    unfold SceneState.decided
    rw [hc, hn]
  constructor
  case apart => rw [hc, hn]; exact h.apart
  case entered => rw [he, hdecided]; exact h.entered
  case running => rw [hdecided, hr]; exact h.running
  case live_running => rw [hl, hr]; exact h.live_running
  case live_open => rw [hl, hc]; exact h.live_open
  case live_kept => rw [hl]; exact fun t ht hin => h.live_kept t ht (hd t hin)

theorem Outcome.marked (h : Outcome s) (hm : Marked s s' C N) {L : Finset Tid}
    (hL : L ⊆ s.sq_live) (hC : ∀ t ∈ C, t ∉ s.scenequeue_notcovered ∧ t ∉ N ∧ t ∉ L)
    (hN : ∀ t ∈ N, t ∉ s.scenequeue_covered) : Outcome { s' with sq_live := L } where
  apart := by
    rw [hm.covered, hm.notcovered, Finset.disjoint_left]
    intro t ht hnt
    rcases Finset.mem_union.mp ht with ht | ht
    · rcases Finset.mem_union.mp hnt with hnt | hnt
      · exact Finset.disjoint_left.mp h.apart ht hnt
      · exact hN t hnt ht
    · rcases Finset.mem_union.mp hnt with hnt | hnt
      · exact (hC t ht).1 hnt
      · exact (hC t ht).2.1 hnt
  entered := by
    intro t
    have hdecided := hm.decided
    unfold SceneState.decided at hdecided ⊢
    dsimp only
    rw [hdecided, hm.entered, h.entered]
    unfold SceneState.decided
    simp only [Finset.mem_union]
    -- a task that is marked had no outcome, or had this one
    have hcn : t ∈ C → t ∉ s.scenequeue_notcovered ∧ t ∉ N := fun ht => ⟨(hC t ht).1, (hC t ht).2.1⟩
    have hnc := hN t
    by_cases hc : t ∈ s.scenequeue_covered <;> by_cases hn : t ∈ s.scenequeue_notcovered <;>
      by_cases htC : t ∈ C <;> by_cases htN : t ∈ N <;> simp_all
  running := by
    have hdecided := hm.decided
    unfold SceneState.decided at hdecided ⊢
    dsimp only
    rw [hdecided, hm.running]
    exact Finset.union_subset_union_left h.running
  live_running := by
    rw [hm.running]
    exact (hL.trans h.live_running).trans Finset.subset_union_left
  live_open := by
    rw [hm.covered, Finset.disjoint_left]
    intro t ht hin
    rcases Finset.mem_union.mp hin with hin | hin
    · exact Finset.disjoint_left.mp h.live_open (hL ht) hin
    · exact (hC t hin).2.2 ht
  live_kept := fun t ht hin => h.live_kept t (hL ht) (hm.deferred t (hL ht) hin)

theorem Outcome.not_decided (h : Outcome s) {t : Tid} (ht : t ∉ s.sq_running) :
    t ∉ s.scenequeue_covered ∧ t ∉ s.scenequeue_notcovered ∧ t ∉ s.sq_live :=
  ⟨fun hin => ht (h.running (Finset.mem_union_left _ hin)),
    fun hin => ht (h.running (Finset.mem_union_right _ hin)), fun hin => ht (h.live_running hin)⟩

theorem not_covered_of_falls {t : Tid} (h : falls cfg w s t) : t ∉ s.scenequeue_covered :=
  fun hin => h.1 (Finset.mem_union_left _ hin)

theorem not_present_of_falls {t : Tid} (h : falls cfg w s t) : ¬ present cfg w t := by
  unfold present
  simp [h.2]

/-! ## Careful steps -/

/-- A task that `task` releases by its completion is not marked as covered while it counts as
not covered. -/
def ReleasesWell (cfg : Config Tid) (w : World Tid Stamp) (task : Tid) (s : SceneState Tid Stamp) :
    Prop :=
  ∀ t ∈ released cfg task s, present cfg w t → t ∉ s.scenequeue_notcovered

/-- No task that migrates has a stamp and a hard dependency that is not covered. -/
def MigratesWell (cfg : Config Tid) (sq : SQData Tid) (w : World Tid Stamp) (e : Exec Tid Stamp) :
    Prop :=
  e.updated_taskhash_queue ≠ [] ∨ e.pending_migrations ≠ ∅ →
    ∀ t ∈ migrating cfg sq w e, present cfg w t → ∀ dep ∈ sq.sq_harddeps_rev t,
      dep ∉ (migration cfg sq w e).1.scene.scenequeue_notcovered

/-- `execute` finds nothing to run for the task, so that it is complete at once. -/
def CompleteAtOnce (cfg : Config Tid) (w : World Tid Stamp) (e : Exec Tid Stamp) (task : Tid) :
    Prop :=
  task ∈ e.scene.tasks_covered ∨ w.stamp_current task = true ∨ cfg.noexec task = true

/-- A step that puts no task in both sets: none of the three happens in it. -/
def Careful [DecidableEq Stamp] (cfg : Config Tid) (sq : SQData Tid) (e : Exec Tid Stamp) :
    Action Tid Stamp → Prop
  | .execute w =>
    MigratesWell cfg sq w e ∧
    ((first_parts cfg sq w e).2 = false → cfg.setsceneonly = false →
      ∀ task, sched_next cfg w (first_parts cfg sq w e).1 = some (some task) →
        CompleteAtOnce cfg w (first_parts cfg sq w e).1 task →
        ReleasesWell cfg w task (first_parts cfg sq w e).1.scene)
  | .reply w task success =>
    success = true → if task ∈ e.scene.sq_live then task ∉ e.scene.scenequeue_notcovered
      else ReleasesWell cfg w task e.scene
  | .finish | .finish_now | .unihash_update _ _ => True

instance (w : World Tid Stamp) (t : Tid) : Decidable (present cfg w t) :=
  inferInstanceAs (Decidable (_ ∨ _))

instance (task : Tid) : Decidable (ReleasesWell cfg w task s) :=
  inferInstanceAs (Decidable (∀ t ∈ released cfg task s, _))

instance (e : Exec Tid Stamp) : Decidable (MigratesWell cfg sq w e) :=
  inferInstanceAs (Decidable (_ → ∀ t ∈ migrating cfg sq w e, _))

instance (e : Exec Tid Stamp) (task : Tid) : Decidable (CompleteAtOnce cfg w e task) :=
  inferInstanceAs (Decidable (_ ∨ _))

instance [Fintype Tid] [DecidableEq Stamp] (e : Exec Tid Stamp) :
    ∀ a : Action Tid Stamp, Decidable (Careful cfg sq e a)
  | .execute _ => inferInstanceAs (Decidable (_ ∧ (_ → _ → ∀ _, _ → _ → _)))
  | .reply _ _ _ => inferInstanceAs (Decidable (_ → ite _ _ _))
  | .finish | .finish_now | .unihash_update _ _ => inferInstanceAs (Decidable True)

/-! ## The steps keep the invariant -/

theorem Outcome.marked_live (h : Outcome s) (hm : Marked s s' C N)
    (hC : ∀ t ∈ C, t ∉ s.scenequeue_notcovered ∧ t ∉ N ∧ t ∉ s.sq_live)
    (hN : ∀ t ∈ N, t ∉ s.scenequeue_covered) : Outcome s' := by
  have hall := h.marked hm (Finset.Subset.refl _) hC hN
  rw [← hm.live] at hall
  exact hall

theorem Outcome.start (w : World Tid Stamp) (q : SQRunQueue Tid) :
    Outcome (start cfg sq w q).scene := by
  unfold runqueue.start
  dsimp only
  generalize hinit : SceneState.mk q.sq_buildable ∅ ∅ _ ∅ ∅ ∅ ∅ ∅ _ ∅ ∅ ∅ true false w.stampfile ∅
    ∅ ∅ ∅ _ cfg.runq_setscene_tids (fun _ => 0) = s0
  have h0 : Outcome s0 := by
    subst hinit
    exact ⟨by simp, by simp [SceneState.decided], by simp [SceneState.decided], by simp, by simp,
      by simp⟩
  obtain ⟨C, hC, -⟩ := update_scenequeue_data_marks cfg sq w cfg.runq_setscene_tids.toFinset s0
  have hupdate : Outcome (update_scenequeue_data cfg sq w cfg.runq_setscene_tids.toFinset s0) := by
    apply h0.marked_live hC
    · subst hinit
      simp
    · simp
  split
  · exact hupdate.congr rfl rfl rfl rfl rfl fun _ h => h
  · exact hupdate

theorem Outcome.migrated {e : Exec Tid Stamp} (h : Outcome e.scene)
    (hwell : MigratesWell cfg sq w e) : Outcome (migrated cfg sq w e).scene := by
  unfold runqueue.migrated
  split
  · rename_i hpending
    have hback := migration_spec cfg sq w e
    obtain ⟨-, C, N, hmarks, hC, hN⟩ := process_possible_migrations_spec cfg sq w e
    have hmig : ∀ t ∈ migrating cfg sq w e, t ∈ (migration cfg sq w e).2.1.toFinset := by
      unfold migrating
      intro t ht
      split at ht
      · exact List.mem_toFinset.mpr ht
      · cases ht
    have hset : Outcome (migration cfg sq w e).1.scene := by
      constructor
      case apart =>
        rw [hback.covered, hback.notcovered]
        exact h.apart.mono Finset.sdiff_subset Finset.sdiff_subset
      case entered =>
        intro t
        unfold SceneState.decided
        rw [hback.entered, hback.covered, hback.notcovered, h.entered]
        unfold SceneState.decided
        simp only [Finset.mem_union, Finset.mem_sdiff]
        by_cases ht : t ∈ (migration cfg sq w e).2.1.toFinset <;> simp [ht]
      case running =>
        unfold SceneState.decided
        rw [hback.covered, hback.notcovered, hback.running, ← Finset.union_sdiff_distrib]
        exact Finset.sdiff_subset_sdiff h.running (Finset.Subset.refl _)
      case live_running =>
        rw [hback.live, hback.running]
        intro t ht
        exact Finset.mem_sdiff.mpr ⟨h.live_running ht, fun hM => (hback.idle t hM).1 ht⟩
      case live_open =>
        rw [hback.live, hback.covered]
        exact h.live_open.mono_right Finset.sdiff_subset
      case live_kept =>
        rw [hback.live, hback.deferred]
        exact h.live_kept
    apply hset.marked_live hmarks
    · intro t ht
      obtain ⟨hin, hpresent⟩ := hC t ht
      refine ⟨?_, ?_, ?_⟩
      · rw [hback.notcovered]
        exact fun hn => (Finset.mem_sdiff.mp hn).2 (hmig t hin)
      · intro htN
        rcases hN t htN with hfail | hfall
        · obtain ⟨-, dep, hdep, hnot⟩ := hfail
          exact hwell hpending t hin hpresent dep hdep hnot
        · exact not_present_of_falls hfall hpresent
      · rw [hback.live]
        exact (hback.idle t (hmig t hin)).1
    · intro t ht
      rcases hN t ht with hfail | hfall
      · rw [hback.covered]
        exact fun hc => (Finset.mem_sdiff.mp hc).2 (hmig t hfail.1)
      · exact not_covered_of_falls hfall
  · exact h

theorem Outcome.update_holdofftasks {e : Exec Tid Stamp} (h : Outcome e.scene) :
    Outcome (update_holdofftasks cfg sq e).scene := by
  unfold runqueue.update_holdofftasks
  split
  · exact h
  · exact h.congr rfl rfl rfl rfl rfl fun _ h => h

theorem Outcome.scene_done {e : Exec Tid Stamp} (h : Outcome e.scene) :
    Outcome (scene_done cfg e).1.scene := by
  have hdone : Outcome { e.scene with sqdone := true } := h.congr rfl rfl rfl rfl rfl fun _ h => h
  unfold runqueue.scene_done
  split
  · split
    · exact h
    · split
      · exact h
      · dsimp only
        split <;> exact hdone
  · exact h

theorem Outcome.wind_up {e : Exec Tid Stamp} (h : Outcome e.scene) :
    Outcome (wind_up cfg e).scene := by
  unfold runqueue.wind_up
  split
  · exact h
  · split
    · refine h.congr rfl rfl rfl rfl rfl fun t ht => ?_
      rw [List.map_tail] at ht
      exact List.mem_of_mem_tail ht
    · split
      · exact h
      · split <;> exact h

theorem Outcome.release (h : Outcome s) {task : Tid} (hwell : ReleasesWell cfg w task s) :
    Outcome (release_deferred cfg sq w task s) := by
  obtain ⟨C, hC, hreleased⟩ := release_deferred_marks cfg sq w task s
  apply h.marked_live hC
  · intro t ht
    obtain ⟨hfirst, hpresent⟩ := hreleased t ht
    refine ⟨hwell t hfirst hpresent, by simp, ?_⟩
    intro hlive
    apply h.live_kept t hlive
    have hin := List.mem_of_find?_eq_some hfirst
    unfold Config.sorted at hin
    simpa using (List.mem_filter.mp hin).2
  · simp

theorem Outcome.ran {e e' : Exec Tid Stamp} {task : Tid} (h : Outcome e.scene)
    (hwell : CompleteAtOnce cfg w e task → ReleasesWell cfg w task e.scene)
    (hran : Ran cfg sq w task e e') : Outcome e'.scene := by
  cases hran with
  | ignored _ => exact h
  | covered hcovered => exact h.release (hwell (Or.inl hcovered))
  | existing hstamp hu =>
    subst hu
    exact h.release (hwell (Or.inr (Or.inl hstamp)))
  | noexec hnoexec => exact h.release (hwell (Or.inr (Or.inr hnoexec)))
  | unspawned _ _ => exact h
  | started _ _ => exact h

theorem Outcome.reply {e : Exec Tid Stamp} (h : Outcome e.scene) (task : Tid) (success : Bool)
    (hwell : success = true → if task ∈ e.scene.sq_live then task ∉ e.scene.scenequeue_notcovered
      else ReleasesWell cfg w task e.scene) :
    Outcome (runqueue_process_waitpid cfg sq w task success e).scene := by
  unfold runqueue_process_waitpid
  dsimp only
  split
  · rename_i hlive
    rw [if_pos hlive] at hwell
    have hrun := h.live_running hlive
    have hopen := Finset.disjoint_left.mp h.live_open hlive
    cases success with
    | true =>
      have hm := sq_task_complete_marks cfg sq w hrun
      simp only [↓reduceIte]
      rw [hm.live]
      apply h.marked hm (Finset.erase_subset _ _)
      · intro t ht
        rw [Finset.mem_singleton.mp ht]
        exact ⟨hwell rfl, by simp, by simp⟩
      · simp
    | false =>
      obtain ⟨N, hm, hfall⟩ := sq_task_fail_marks cfg sq w hrun
      have hscene : (sq_check_taskfail cfg task { e with
          build_stamps := e.build_stamps.del task
          scene := sq_task_fail cfg sq w task e.scene }).scene =
          sq_task_fail cfg sq w task e.scene := by
        unfold sq_check_taskfail
        split
        · split <;> rfl
        · rfl
      simp only [Bool.false_eq_true, ↓reduceIte]
      rw [hscene, hm.live]
      apply h.marked hm (Finset.erase_subset _ _)
      · simp
      · intro t ht
        rcases Finset.mem_union.mp ht with ht | ht
        · rw [Finset.mem_singleton.mp ht]
          exact hopen
        · exact not_covered_of_falls (hfall t ht)
  · rename_i hlive
    rw [if_neg hlive] at hwell
    split
    · rename_i hsuccess
      exact h.release (hwell hsuccess)
    · exact h

variable [DecidableEq Stamp]

theorem Outcome.setscene_part {e : Exec Tid Stamp} (h : Outcome e.scene) :
    Outcome (setscene_part cfg sq w e).1.scene := by
  have hmarks := find_setscene_marks cfg sq w e
  have hfound : Outcome (find_setscene cfg sq w e).1 := h.marked_live hmarks (by simp) (by simp)
  have hidle : ∀ t, (find_setscene cfg sq w e).2.task = some t →
      t ∉ (find_setscene cfg sq w e).1.sq_running := by
    intro t ht
    rw [hmarks.running]
    simpa using (find_setscene_task ht).1
  unfold runqueue.setscene_part
  split
  · rename_i heq
    rw [heq] at hfound
    exact hfound
  · rename_i scene task heq
    have hkept : task ∉ (find_setscene cfg sq w e).1.sq_deferred.map Prod.fst :=
      find_setscene_start (by rw [heq])
    rw [heq] at hfound hidle hkept
    have hnot := hfound.not_decided (hidle task rfl)
    exact {
      apart := hfound.apart
      entered := hfound.entered
      running := hfound.running.trans (Finset.subset_insert _ _)
      live_running := Finset.insert_subset_insert _ hfound.live_running
      live_open := Finset.disjoint_insert_left.mpr ⟨hnot.1, hfound.live_open⟩
      live_kept := by
        intro t ht
        rcases Finset.mem_insert.mp ht with rfl | ht
        · exact hkept
        · exact hfound.live_kept t ht }
  · rename_i scene choice _ _ heq
    rw [heq] at hfound hidle
    obtain ⟨C, N, hm, hkind⟩ := settle_marks cfg sq w scene choice
    apply hfound.marked_live hm
    · intro t ht
      rcases hkind with ⟨rfl, htask⟩ | ⟨rfl, -⟩
      · have hnot := hfound.not_decided (hidle t (htask t ht))
        exact ⟨hnot.2.1, by simp, hnot.2.2⟩
      · simp at ht
    · intro t ht
      rcases hkind with ⟨rfl, -⟩ | ⟨rfl, hfail⟩
      · simp at ht
      · rcases hfail t ht with htask | hfall
        · exact (hfound.not_decided (hidle t htask)).1
        · exact not_covered_of_falls hfall

theorem Outcome.step {e e' : Exec Tid Stamp} {a : Action Tid Stamp} (h : Outcome e.scene)
    (hcareful : Careful cfg sq e a) (hstep : step cfg sq e a = some e') : Outcome e'.scene := by
  unfold runqueue.step at hstep
  cases a with
  | execute w =>
    dsimp only at hstep
    split at hstep
    · have hfirst : Outcome (first_parts cfg sq w e).1.scene := by
        apply first_parts_keep (I := fun u => Outcome u.scene)
        · exact h.migrated hcareful.1
        · exact fun hmigrated => hmigrated.setscene_part
        · exact fun u hu => hu.update_holdofftasks
        · exact fun u hu => hu.scene_done
      apply execute_ends (I := fun u => Outcome u.scene) hstep hfirst
      · intro hend honly task hnext
        exact hfirst.ran (hcareful.2 hend honly task hnext) (run_task_ran cfg sq w task _)
      · exact fun u hu => hu.wind_up
    · cases hstep
  | finish =>
    obtain rfl := Option.some.inj hstep
    unfold finish
    split
    · exact h
    · split <;> exact h
  | finish_now =>
    obtain rfl := Option.some.inj hstep
    unfold finish_now
    split <;> exact h
  | reply w task success =>
    dsimp only at hstep
    split at hstep
    · obtain rfl := Option.some.inj hstep
      exact h.reply task success hcareful
    · cases hstep
  | unihash_update task unihash =>
    obtain rfl := Option.some.inj hstep
    exact h

/-- In a run of careful steps no task is covered and not covered, and each task has entered at
most one of the two sets, and that once, since it last migrated. -/
theorem in_a_careful_run_each_task_has_one_outcome {q : SQRunQueue Tid} {w : World Tid Stamp}
    {e : Exec Tid Stamp} (h : Reaches (step cfg sq) (Careful cfg sq) (start cfg sq w q) e) :
    Disjoint e.scene.scenequeue_covered e.scene.scenequeue_notcovered ∧
      ∀ t, e.scene.entered t ≤ 1 := by
  have hout : Outcome e.scene := by
    apply h.invariant (I := fun e => Outcome e.scene)
    · exact Outcome.start w q
    · exact fun _ _ _ hs hok hstep => hs.step hok hstep
  refine ⟨hout.apart, fun t => ?_⟩
  rw [hout.entered]
  split <;> omega

/-! ## Two runs -/

/-- Setscene tasks 0 and 1, of which 1 has a hard dependency on 0. Task 1 depends on task 2. -/
def hardDependency : Config (Fin 3) where
  runtaskentries := [0, 1, 2]
  depends := ![[], [2], []]
  revdeps := ![[], [], [1]]
  closed := by decide
  matching := by decide
  runq_setscene_tids := [0, 1]
  target_tids := [0, 1]
  hard_deptids := ![[], [0], []]
  setscene_mem := by decide
  sorted_tids := [0, 1, 2]
  mc_sorted_tids := [0, 1, 2]
  taskname := fun _ => []
  pn := ![text "first", text "second", text "third"]
  noexec := fun _ => false
  fakeroot := fun _ => false
  number_threads := fun _ => none
  prio_map := [0, 1, 2]
  number_tasks := 4
  halt := true
  force := false
  skipsetscene := false
  setsceneonly := false
  dry_run := false
  setscene_enforce := false
  setscene_ignore_tasks := none

def fullMirror : World (Fin 3) (Fin 3) where
  stamp_current := fun _ => false
  stamp_current_recurse := fun _ => false
  setscene_stamp_current := fun _ => false
  validate_hashes := id
  depvalidate := fun _ => false
  fakeworker_fails := fun _ => false
  exceeds_max_pressure := false
  stampfile := id
  setscene_stampfile := id
  taskhash := fun _ => []
  unihash := fun _ => []

/-- The unihash of task 1 has changed, and a setscene stamp of the new one is there. -/
def newStamp : World (Fin 3) (Fin 3) :=
  { fullMirror with
    setscene_stamp_current := ![false, true, false]
    unihash := ![[], text "b", []] }

def built : SQData (Fin 3) × SQRunQueue (Fin 3) :=
  (build_scenequeue_data hardDependency.toRunQueueData).toOption.get (by decide)

def first : Exec (Fin 3) (Fin 3) := start hardDependency built.1 fullMirror built.2

/-- Task 0 fails, and with it task 1. Then the unihash of task 2 changes, so that task 1
migrates: it is covered since it has a stamp, and fails since task 0 is not covered. -/
theorem a_migration_gives_a_task_both_outcomes :
    ∃ e, Reaches (step hardDependency built.1) anyStep first e ∧
      1 ∈ e.scene.scenequeue_covered ∧ 1 ∈ e.scene.scenequeue_notcovered :=
  ⟨(runAll (step hardDependency built.1) first
    [.execute fullMirror, .reply fullMirror 0 false, .unihash_update 2 (text "b"),
      .execute newStamp]).get (by decide), .of_isSome (by decide), by decide, by decide⟩

theorem two_tasks_are_covered :
    ∃ e : Exec (Fin 3) (Fin 3), e.scene.scenequeue_covered = {0, 1} ∧
      Disjoint e.scene.scenequeue_covered e.scene.scenequeue_notcovered ∧
      ∀ t, e.scene.entered t ≤ 1 :=
  ⟨(runOk (step hardDependency built.1) (Careful hardDependency built.1) first
    [.execute fullMirror, .reply fullMirror 0 true, .execute fullMirror,
      .reply fullMirror 1 true]).get (by decide), by decide,
    in_a_careful_run_each_task_has_one_outcome (.of_runOk (Option.some_get _).symm)⟩

end yocto.scene_outcomes
