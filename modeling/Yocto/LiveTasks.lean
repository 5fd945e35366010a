-- How many tasks run. `stats.active` is to be the number of normal tasks at a worker, and with
-- the setscene tasks there it is never more than `number_tasks`.
import Yocto.TaskSafety

open yocto.scenequeue yocto.runqueue yocto.runs yocto.task_safety

namespace yocto.live_tasks

variable {Tid Stamp : Type} [DecidableEq Tid]
variable {cfg : Config Tid} {sq : SQData Tid} {w : World Tid Stamp} {e e' : Exec Tid Stamp}

/-! ## The invariant -/

/-- What holds of the counts in every state of a run in which no task fails before its start. -/
structure Counted (cfg : Config Tid) (e : Exec Tid Stamp) : Prop where
  active : e.tasks.stats.active = e.tasks.live.card
  running : e.tasks.live ⊆ e.tasks.runq_running
  bound : e.tasks.stats.active + e.scene.sq_live.card ≤ cfg.number_tasks

omit [DecidableEq Tid] in
theorem Counted.congr (h : Counted cfg e) (hs : e'.tasks.stats.active = e.tasks.stats.active)
    (hl : e'.tasks.live = e.tasks.live) (hr : e.tasks.runq_running ⊆ e'.tasks.runq_running)
    (hq : e'.scene.sq_live = e.scene.sq_live) : Counted cfg e' where
  active := by rw [hs, hl]; exact h.active
  running := by rw [hl]; exact h.running.trans hr
  bound := by rw [hs, hq]; exact h.bound

omit [DecidableEq Tid] in
theorem Counted.prepared (h : Counted cfg e) (ht : Prepared cfg e.tasks e'.tasks)
    (hq : e'.scene.sq_live = e.scene.sq_live) : Counted cfg e' :=
  h.congr (by rw [ht.stats]) ht.live (by rw [ht.running]) hq

theorem Counted.ended (h : Counted cfg e) {task : Tid} (hlive : task ∈ e.tasks.live)
    (hs : e'.tasks.stats.active = e.tasks.stats.active - 1)
    (hl : e'.tasks.live = e.tasks.live.erase task)
    (hr : e'.tasks.runq_running = e.tasks.runq_running)
    (hq : e'.scene.sq_live = e.scene.sq_live) : Counted cfg e' where
  active := by
    have hpos := Finset.card_pos.mpr ⟨task, hlive⟩
    rw [hs, hl, h.active, Finset.card_erase_of_mem hlive]
    omega
  running := by
    rw [hl, hr]
    exact (Finset.erase_subset _ _).trans h.running
  bound := by
    have hb := h.bound
    rw [hs, hq]
    omega

theorem sq_live_migrated (e : Exec Tid Stamp) :
    (migrated cfg sq w e).scene.sq_live = e.scene.sq_live := by
  unfold migrated
  split
  · obtain ⟨-, C, N, hmarks, -⟩ := process_possible_migrations_spec cfg sq w e
    exact hmarks.live.trans (migration_spec cfg sq w e).live
  · rfl

/-! ## Steps -/

/-- `execute` does not fail a task before its start. -/
def StartsWell [DecidableEq Stamp] (cfg : Config Tid) (sq : SQData Tid) (e : Exec Tid Stamp) :
    Action Tid Stamp → Prop
  | .execute w =>
    (first_parts cfg sq w e).2 = false → cfg.setsceneonly = false →
      ∀ task, sched_next cfg w (first_parts cfg sq w e).1 = some (some task) →
        ¬ check_setscene_ignore_tasks cfg w (first_parts cfg sq w e).1 task ∧
        (HasWork cfg w (first_parts cfg sq w e).1 task → ¬ spawn_fails cfg w task)
  | .finish | .finish_now | .reply _ _ _ | .unihash_update _ _ => True

instance [Fintype Tid] [DecidableEq Stamp] (e : Exec Tid Stamp) :
    ∀ a : Action Tid Stamp, Decidable (StartsWell cfg sq e a)
  | .execute _ => inferInstanceAs (Decidable (_ → _ → ∀ _, _ → _))
  | .finish | .finish_now | .reply _ _ _ | .unihash_update _ _ => inferInstanceAs (Decidable True)

theorem complete_task_stats (cfg : Config Tid) (task : Tid) (t : TaskState Tid) :
    (complete_task cfg task t).stats = t.stats ∧ (complete_task cfg task t).live = t.live ∧
      (complete_task cfg task t).runq_running = t.runq_running := by
  obtain ⟨new, heq, -⟩ := complete_task_spec cfg task t
  rw [heq]
  exact ⟨rfl, rfl, rfl⟩

theorem Counted.task_skip (h : Counted cfg e) (task : Tid) :
    Counted cfg (task_skip cfg sq w task e) := by
  obtain ⟨hstats, hlive, hrun⟩ := complete_task_stats cfg task
    (setbuildable task (put_running task e.tasks))
  have hactive : (runqueue.task_skip cfg sq w task e).tasks.stats.active =
      (complete_task cfg task (setbuildable task (put_running task e.tasks))).stats.active + 1 - 1 :=
    rfl
  apply h.congr
  · rw [hactive, hstats]
    exact Int.add_sub_cancel _ _
  · exact hlive
  · intro t ht
    have hin : t ∈ (setbuildable task (put_running task e.tasks)).runq_running :=
      Finset.mem_insert_of_mem ht
    rwa [← hrun] at hin
  · exact (task_skip_same cfg sq w task e).sq_live

theorem Counted.run_noexec (h : Counted cfg e) {task : Tid} (hnot : task ∉ e.tasks.runq_running) :
    Counted cfg (run_noexec cfg sq w task e) := by
  have hactive : (runqueue.run_noexec cfg sq w task e).tasks.stats.active =
      (complete_task cfg task { put_running task e.tasks with
        stats := (put_running task e.tasks).stats.taskActive.taskCompleted }).stats.active := rfl
  obtain ⟨hstats, hlive, hrun⟩ := complete_task_stats cfg task
    { put_running task e.tasks with
      stats := (put_running task e.tasks).stats.taskActive.taskCompleted }
  apply h.congr
  · rw [hactive, hstats]
    exact Int.add_sub_cancel _ _
  · have hidle : task ∉ e.tasks.live := fun hin => hnot (h.running hin)
    have herase : (runqueue.run_noexec cfg sq w task e).tasks.live =
        (complete_task cfg task { put_running task e.tasks with
          stats := (put_running task e.tasks).stats.taskActive.taskCompleted }).live.erase task := rfl
    rw [herase, hlive]
    exact Finset.erase_eq_of_notMem hidle
  · intro t ht
    have hin : t ∈ (put_running task e.tasks).runq_running := Finset.mem_insert_of_mem ht
    have hrun' : (runqueue.run_noexec cfg sq w task e).tasks.runq_running =
        (put_running task e.tasks).runq_running := hrun
    rwa [hrun']
  · exact (task_complete_same cfg sq w task _).sq_live

theorem Counted.start_task (h : Counted cfg e) {task : Tid} (hnot : task ∉ e.tasks.runq_running)
    (hcan : can_start_task cfg e) : Counted cfg (start_task w task e) where
  active := by
    have hidle : task ∉ e.tasks.live := fun hin => hnot (h.running hin)
    have hcard : ((insert task e.tasks.live).card : Int) = e.tasks.live.card + 1 := by
      rw [Finset.card_insert_of_notMem hidle]
      omega
    have hactive := h.active
    exact (congrArg (· + 1) hactive).trans hcard.symm
  running := Finset.insert_subset_insert _ h.running
  bound := by
    have hactive : (runqueue.start_task w task e).tasks.stats.active = e.tasks.stats.active + 1 := rfl
    have hlive : (runqueue.start_task w task e).scene.sq_live = e.scene.sq_live := rfl
    unfold can_start_task at hcan
    rw [hactive, hlive]
    omega

theorem Counted.ran [DecidableEq Stamp] (h : Counted cfg e) {task : Tid}
    (hnot : task ∉ e.tasks.runq_running) (hcan : can_start_task cfg e)
    (hwell : ¬ check_setscene_ignore_tasks cfg w e task ∧
      (HasWork cfg w e task → ¬ spawn_fails cfg w task))
    (hran : Ran cfg sq w task e e') : Counted cfg e' := by
  cases hran with
  | ignored hignored => exact absurd hignored hwell.1
  | covered _ => exact h.task_skip task
  | existing _ hu =>
    subst hu
    exact (h.task_skip task).congr rfl rfl (Finset.Subset.refl _) rfl
  | noexec _ => exact h.run_noexec hnot
  | unspawned hwork hspawn => exact absurd hspawn (hwell.2 hwork)
  | started _ _ => exact h.start_task hnot hcan

theorem Counted.setscene_part [DecidableEq Stamp] (h : Counted cfg e) :
    Counted cfg (setscene_part cfg sq w e).1 := by
  have hlive := (find_setscene_marks cfg sq w e).live
  unfold runqueue.setscene_part
  split
  · rename_i heq
    rw [heq] at hlive
    exact h.congr rfl rfl (Finset.Subset.refl _) hlive
  · rename_i scene task heq
    rw [heq] at hlive
    have hfound : (find_setscene cfg sq w e).2.task = some task := by
      rw [heq]
      rfl
    have hcan := (find_setscene_task hfound).2.2
    refine ⟨h.active, h.running, ?_⟩
    have hcard := Finset.card_insert_le task scene.sq_live
    have hbound : e.tasks.stats.active + (insert task scene.sq_live).card ≤ cfg.number_tasks := by
      unfold can_start_task at hcan
      rw [hlive] at hcard ⊢
      omega
    exact hbound
  · rename_i scene choice _ _ heq
    rw [heq] at hlive
    obtain ⟨C, N, hm, -⟩ := settle_marks cfg sq w scene choice
    exact h.congr rfl rfl (Finset.Subset.refl _) (hm.live.trans hlive)

theorem Counted.reply (h : Counted cfg e) {task : Tid} (success : Bool)
    (hlive : task ∈ e.scene.sq_live ∨ task ∈ e.tasks.live) :
    Counted cfg (runqueue_process_waitpid cfg sq w task success e) := by
  unfold runqueue_process_waitpid
  dsimp only
  split
  · -- a setscene task: there are fewer of them, and the normal tasks are the same
    have hfewer : ∀ u : Exec Tid Stamp, u.tasks = e.tasks → u.scene.sq_live = e.scene.sq_live →
        Counted cfg { u with scene := { u.scene with sq_live := u.scene.sq_live.erase task } } := by
      intro u htasks hscene
      have hcard := Finset.card_erase_le (a := task) (s := e.scene.sq_live)
      have hbound := h.bound
      refine ⟨by rw [htasks]; exact h.active, by rw [htasks]; exact h.running, ?_⟩
      dsimp only
      rw [htasks, hscene]
      omega
    cases success with
    | true => exact hfewer _ rfl rfl
    | false =>
      simp only [Bool.false_eq_true, ↓reduceIte]
      have hmarks : (sq_task_fail cfg sq w task e.scene).sq_live = e.scene.sq_live := by
        obtain ⟨N, hm, -⟩ := scenequeue_updatecounters_marks cfg sq w
          (cfg.runtaskentries.length + 1) task true (add_notcovered task e.scene)
        exact hm.live
      apply hfewer
      · unfold sq_check_taskfail
        split
        · split <;> rfl
        · rfl
      · unfold sq_check_taskfail
        split
        · split <;> exact hmarks
        · exact hmarks
  · rename_i hscene
    have hin := hlive.resolve_left hscene
    split
    · have hactive : (task_complete cfg sq w task
          { e with build_stamps := e.build_stamps.del task }).tasks.stats.active =
          (complete_task cfg task
            { e.tasks with stats := e.tasks.stats.taskCompleted }).stats.active := rfl
      obtain ⟨hstats, hl, hr⟩ := complete_task_stats cfg task
        { e.tasks with stats := e.tasks.stats.taskCompleted }
      apply h.ended hin
      · rw [hactive, hstats]
        rfl
      · exact congrArg (Finset.erase · task) hl
      · exact hr
      · exact (task_complete_same cfg sq w task _).sq_live
    · exact h.ended hin rfl rfl rfl rfl

theorem Counted.step [DecidableEq Stamp] {a : Action Tid Stamp} (h : Counted cfg e)
    (hwell : StartsWell cfg sq e a) (hstep : step cfg sq e a = some e') : Counted cfg e' := by
  unfold runqueue.step at hstep
  cases a with
  | execute w =>
    dsimp only at hstep
    split at hstep
    · have hfirst : Counted cfg (first_parts cfg sq w e).1 := by
        apply first_parts_keep (I := Counted cfg)
        · exact h.prepared (migrated_tasks e) (sq_live_migrated e)
        · exact fun hmigrated => hmigrated.setscene_part
        · exact fun u hu => hu.prepared (update_holdofftasks_tasks cfg sq u)
            (update_holdofftasks_same cfg sq u).sq_live
        · intro u hu
          exact hu.congr (by rw [scene_done_tasks]) (by rw [scene_done_tasks])
            (by rw [scene_done_tasks]) (scene_done_same cfg u).sq_live
      apply execute_ends (I := Counted cfg) hstep hfirst
      · intro hend honly task hnext
        obtain ⟨hcan, hcandidate, -⟩ := sched_next_spec hnext
        simp only [candidates, Finset.mem_inter, Finset.mem_sdiff] at hcandidate
        exact hfirst.ran hcandidate.1.1.2 hcan (hwell hend honly task hnext)
          (run_task_ran cfg sq w task _)
      · intro u hu
        exact hu.congr (by rw [wind_up_tasks]) (by rw [wind_up_tasks]) (by rw [wind_up_tasks])
          (wind_up_same cfg u).sq_live
    · cases hstep
  | finish =>
    obtain rfl := Option.some.inj hstep
    unfold finish
    split
    · exact h.congr rfl rfl (Finset.Subset.refl _) rfl
    · split <;> exact h.congr rfl rfl (Finset.Subset.refl _) rfl
  | finish_now =>
    obtain rfl := Option.some.inj hstep
    unfold finish_now
    split <;> exact h.congr rfl rfl (Finset.Subset.refl _) rfl
  | reply w task success =>
    dsimp only at hstep
    split at hstep
    · rename_i hlive
      obtain rfl := Option.some.inj hstep
      exact h.reply success hlive
    · cases hstep
  | unihash_update task unihash =>
    obtain rfl := Option.some.inj hstep
    exact h.congr rfl rfl (Finset.Subset.refl _) rfl

/-- In a run in which no task fails before its start, `stats.active` is the number of normal
tasks at a worker, with the setscene tasks there it is at most `number_tasks`, and `finish`
leaves the clean-up state only when nothing runs. -/
theorem the_active_tasks_are_those_that_run [DecidableEq Stamp] {q : SQRunQueue Tid}
    (h : Reaches (step cfg sq) (StartsWell cfg sq) (start cfg sq w q) e) :
    e.tasks.stats.active = e.tasks.live.card ∧
      e.tasks.stats.active + e.scene.sq_live.card ≤ cfg.number_tasks ∧
      ((finish e).state ≠ .runQueueCleanUp → e.tasks.live = ∅ ∧ e.scene.sq_live = ∅) := by
  have hcounted : Counted cfg e := by
    apply h.invariant (I := Counted cfg)
    · have hlive : (start cfg sq w q).scene.sq_live = ∅ := by
        unfold start
        dsimp only
        split <;> exact (update_scenequeue_data_marks cfg sq w _ _).choose_spec.1.live
      refine ⟨rfl, Finset.Subset.refl _, ?_⟩
      rw [hlive]
      exact Int.natCast_nonneg _
    · exact fun _ _ _ hs hok hstep => hs.step hok hstep
  refine ⟨hcounted.active, hcounted.bound, ?_⟩
  intro hleft
  have hsum : ¬ e.tasks.stats.active + e.scene.sq_live.card > 0 := by
    intro hpos
    apply hleft
    unfold finish
    rw [if_pos hpos]
  rw [hcounted.active] at hsum
  constructor
  · apply Finset.card_eq_zero.mp
    omega
  · apply Finset.card_eq_zero.mp
    omega

/-! ## Two runs -/

/-- Tasks 0 and 1 without dependencies. Setscene tasks are enforced, and only task 0 may run. -/
def enforced : Config (Fin 2) where
  runtaskentries := [0, 1]
  depends := fun _ => []
  revdeps := fun _ => []
  closed := @apart_closed
  matching := @apart_matching
  runq_setscene_tids := []
  target_tids := [0, 1]
  hard_deptids := fun _ => []
  setscene_mem := no_setscene
  sorted_tids := [0, 1]
  mc_sorted_tids := [0, 1]
  taskname := fun _ => []
  pn := fun _ => []
  noexec := fun _ => false
  fakeroot := fun _ => false
  number_threads := fun _ => none
  prio_map := [0, 1]
  number_tasks := 4
  halt := true
  force := false
  skipsetscene := false
  setsceneonly := false
  dry_run := false
  setscene_enforce := true
  setscene_ignore_tasks := some fun t => t == 0

def enforcedBuilt : SQData (Fin 2) × SQRunQueue (Fin 2) :=
  (build_scenequeue_data enforced.toRunQueueData).toOption.get (by decide)

def enforcedStart : Exec (Fin 2) (Fin 2) :=
  start enforced enforcedBuilt.1 emptyWorld enforcedBuilt.2

theorem one_active_task :
    ∃ e : Exec (Fin 2) (Fin 2), e.tasks.live = {0} ∧ e.tasks.stats.active = e.tasks.live.card ∧
      e.tasks.stats.active + e.scene.sq_live.card ≤ enforced.number_tasks ∧
      ((finish e).state ≠ .runQueueCleanUp → e.tasks.live = ∅ ∧ e.scene.sq_live = ∅) :=
  ⟨(runOk (step enforced enforcedBuilt.1) (StartsWell enforced enforcedBuilt.1) enforcedStart
    [.execute emptyWorld]).get (by decide), by decide,
    the_active_tasks_are_those_that_run (.of_runOk (Option.some_get _).symm)⟩

/-- Task 0 runs, and task 1 fails since it may not run. No task counts as active then, and
`finish` leaves the clean-up state while task 0 runs. -/
theorem a_task_that_may_not_run_hides_one_that_runs :
    ∃ e : Exec (Fin 2) (Fin 2),
      Reaches (step enforced enforcedBuilt.1) anyStep enforcedStart e ∧
      e.tasks.live = {0} ∧ e.tasks.stats.active = 0 ∧ e.state = .runQueueCleanUp ∧
      (finish e).state ≠ .runQueueCleanUp :=
  ⟨(runAll (step enforced enforcedBuilt.1) enforcedStart
    [.execute emptyWorld, .execute emptyWorld]).get (by decide), .of_isSome (by decide),
    by decide, by decide, by decide, by decide⟩

end yocto.live_tasks
