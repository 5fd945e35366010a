-- Which tasks may run at the same time. Before a start the stamp of the task is looked up
-- among `build_stamps`, so that no two tasks with one stamp run in parallel.
import Yocto.TaskSafety

open yocto.task_ids yocto.ordered_dict yocto.scenequeue yocto.runqueue yocto.runs
open yocto.task_safety

namespace yocto.stamp_guards

variable {Tid Stamp : Type} [DecidableEq Tid]
variable {cfg : Config Tid} {sq : SQData Tid} {w : World Tid Stamp} {e e' : Exec Tid Stamp}

/-! ## The invariant -/

/-- No two tasks at a worker have one stamp. -/
structure Apart (e : Exec Tid Stamp) : Prop where
  scene : ∀ t ∈ e.scene.sq_live, ∀ u ∈ e.scene.sq_live, t ≠ u →
    e.scene.stamps t ≠ e.scene.stamps u
  normal : ∀ t ∈ e.tasks.live, ∀ u ∈ e.tasks.live, t ≠ u → e.run_stamp t ≠ e.run_stamp u
  both : ∀ t ∈ e.scene.sq_live, ∀ u ∈ e.tasks.live, e.scene.stamps t ≠ e.run_stamp u

/-- The stamps of the normal tasks at a worker are all in `build_stamps`, and no task is at a
worker in both variants. -/
structure Guarded (e : Exec Tid Stamp) : Prop extends Apart e where
  entered : ∀ t ∈ e.tasks.live, (t, e.run_stamp t) ∈ e.build_stamps
  one_variant : ∀ t ∈ e.scene.sq_live, t ∉ e.tasks.live
  running : e.tasks.live ⊆ e.tasks.runq_running

omit [DecidableEq Tid] in
theorem Guarded.fewer (h : Guarded e) (hq : e'.scene.sq_live ⊆ e.scene.sq_live)
    (hl : e'.tasks.live ⊆ e.tasks.live) (hr : e.tasks.runq_running ⊆ e'.tasks.runq_running)
    (hst : ∀ t ∈ e'.scene.sq_live, e'.scene.stamps t = e.scene.stamps t)
    (hrun : e'.run_stamp = e.run_stamp)
    (hb : ∀ x ∈ e.build_stamps, x.1 ∈ e'.tasks.live → x ∈ e'.build_stamps) : Guarded e' where
  scene := by
    intro t ht u hu
    rw [hst t ht, hst u hu]
    exact h.scene t (hq ht) u (hq hu)
  normal := by
    intro t ht u hu
    rw [hrun]
    exact h.normal t (hl ht) u (hl hu)
  both := by
    intro t ht u hu
    rw [hst t ht, hrun]
    exact h.both t (hq ht) u (hl hu)
  entered := by
    intro t ht
    rw [hrun]
    exact hb _ (h.entered t (hl ht)) ht
  one_variant := fun t ht hin => h.one_variant t (hq ht) (hl hin)
  running := (hl.trans h.running).trans hr

omit [DecidableEq Tid] in
theorem Guarded.same (h : Guarded e) (hs : SameStamps e e') (hl : e'.tasks.live ⊆ e.tasks.live)
    (hr : e.tasks.runq_running ⊆ e'.tasks.runq_running) : Guarded e' := by
  apply h.fewer (by rw [hs.sq_live]) hl hr
  · intro t _
    rw [hs.stamps]
  · exact hs.run_stamp
  · intro x hx _
    rwa [hs.build_stamps]

/-! ## Starts that keep the stamps apart -/

/-- The start of a setscene task of which no other setscene task at a worker has the stamp, and
which is not at a worker in its normal variant. -/
def SceneApart (e : Exec Tid Stamp) (task : Tid) : Prop :=
  task ∉ e.tasks.live ∧ ∀ u ∈ e.scene.sq_live, e.scene.stamps u ≠ e.scene.stamps task

/-- The start of a normal task of which no setscene task at a worker has the stamp, and which is not
at a worker as a setscene task. -/
def TaskApart (w : World Tid Stamp) (e : Exec Tid Stamp) (task : Tid) : Prop :=
  task ∉ e.scene.sq_live ∧ (∀ u ∈ e.scene.sq_live, e.scene.stamps u ≠ w.stampfile task) ∧
    (e.sched_stamps task = w.stampfile task ∨ w.stampfile task ∉ e.build_stamps.map Prod.snd)

/-- Both starts of `execute`, if it makes them, are such. -/
def StartsApart [DecidableEq Stamp] (cfg : Config Tid) (sq : SQData Tid) (e : Exec Tid Stamp) :
    Action Tid Stamp → Prop
  | .execute w =>
    (∀ task, (find_setscene cfg sq w (migrated cfg sq w e)).2 = .start task →
      SceneApart (migrated cfg sq w e) task) ∧
    ((first_parts cfg sq w e).2 = false → cfg.setsceneonly = false →
      ∀ task, sched_next cfg w (first_parts cfg sq w e).1 = some (some task) →
        HasWork cfg w (first_parts cfg sq w e).1 task → ¬ spawn_fails cfg w task →
        TaskApart w (first_parts cfg sq w e).1 task)
  | .finish | .finish_now | .reply _ _ _ | .unihash_update _ _ => True

instance [DecidableEq Stamp] (e : Exec Tid Stamp) (task : Tid) : Decidable (SceneApart e task) :=
  inferInstanceAs (Decidable (_ ∧ _))

instance [DecidableEq Stamp] (e : Exec Tid Stamp) (task : Tid) : Decidable (TaskApart w e task) :=
  inferInstanceAs (Decidable (_ ∧ _ ∧ _))

instance [Fintype Tid] [DecidableEq Stamp] (e : Exec Tid Stamp) :
    ∀ a : Action Tid Stamp, Decidable (StartsApart cfg sq e a)
  | .execute _ => inferInstanceAs (Decidable ((∀ _, _ → _) ∧ (_ → _ → ∀ _, _ → _ → _ → _)))
  | .finish | .finish_now | .reply _ _ _ | .unihash_update _ _ => inferInstanceAs (Decidable True)

/-! ## Steps -/

theorem Guarded.migrated (h : Guarded e) : Guarded (migrated cfg sq w e) := by
  unfold runqueue.migrated
  split
  · have hback := migration_spec cfg sq w e
    obtain ⟨hsame, C, N, hmarks, -⟩ := process_possible_migrations_spec cfg sq w e
    obtain ⟨failed, hfailed⟩ := hback.tasks
    have htasks := hsame.tasks.trans hfailed
    -- a task that is set back is not at a worker
    have hlive : ∀ t ∈ (process_possible_migrations cfg sq w e).scene.sq_live,
        t ∉ (migration cfg sq w e).2.1.toFinset := by
      intro t ht hM
      rw [hmarks.live, hback.live] at ht
      exact (hback.idle t hM).1 ht
    apply h.fewer
    · rw [hmarks.live, hback.live]
    · rw [htasks]
    · rw [htasks]
    · intro t ht
      rw [hmarks.stamps]
      exact hback.stamps t (hlive t ht)
    · exact hsame.run_stamp.trans hback.run_stamp
    · intro x hx hin
      rw [hsame.build_stamps]
      apply hback.build_stamps x hx
      intro hM
      rw [htasks] at hin
      exact (hback.idle x.1 hM).2 (h.running hin)
  · exact h

theorem Guarded.task_skip (h : Guarded e) (task : Tid) : Guarded (task_skip cfg sq w task e) := by
  obtain ⟨new, heq, -⟩ := complete_task_spec cfg task (setbuildable task (put_running task e.tasks))
  have htasks : (runqueue.task_skip cfg sq w task e).tasks =
      { complete_task cfg task (setbuildable task (put_running task e.tasks)) with
        stats := (complete_task cfg task
          (setbuildable task (put_running task e.tasks))).stats.taskSkipped.taskCompleted } := rfl
  apply h.same (task_skip_same cfg sq w task e)
  · rw [htasks, heq]
    exact Finset.Subset.refl _
  · rw [htasks, heq]
    exact Finset.subset_insert _ _

theorem Guarded.task_complete (h : Guarded e) (task : Tid) :
    Guarded (task_complete cfg sq w task e) := by
  obtain ⟨new, heq, -⟩ := complete_task_spec cfg task
    { e.tasks with stats := e.tasks.stats.taskCompleted }
  have htasks : (runqueue.task_complete cfg sq w task e).tasks =
      { complete_task cfg task { e.tasks with stats := e.tasks.stats.taskCompleted } with
        runq_tasksrun := insert task (complete_task cfg task
          { e.tasks with stats := e.tasks.stats.taskCompleted }).runq_tasksrun
        live := (complete_task cfg task
          { e.tasks with stats := e.tasks.stats.taskCompleted }).live.erase task } := rfl
  apply h.same (task_complete_same cfg sq w task e)
  · rw [htasks, heq]
    exact Finset.erase_subset _ _
  · rw [htasks, heq]

theorem Guarded.start_task (h : Guarded e) {task : Tid} (hnot : task ∉ e.tasks.runq_running)
    (hfree : e.sched_stamps task ∉ e.build_stamps.map Prod.snd) (hapart : TaskApart w e task) :
    Guarded (start_task w task e) := by
  have hfree' : w.stampfile task ∉ e.build_stamps.map Prod.snd := by
    rcases hapart.2.2 with heq | hnew
    · rwa [← heq]
    · exact hnew
  have hold : ∀ u ∈ e.tasks.live, e.run_stamp u ≠ w.stampfile task := by
    intro u hu heq
    exact hfree' (heq ▸ List.mem_map_of_mem (f := Prod.snd) (h.entered u hu))
  have hne : ∀ u ∈ e.tasks.live, u ≠ task := by
    rintro u hu rfl
    exact hnot (h.running hu)
  have hself : (runqueue.start_task w task e).run_stamp task = w.stampfile task :=
    Function.update_self _ _ _
  have hother : ∀ u ∈ e.tasks.live, (runqueue.start_task w task e).run_stamp u = e.run_stamp u :=
    fun u hu => Function.update_of_ne (hne u hu) _ _
  have hnormal : ∀ t ∈ insert task e.tasks.live, ∀ u ∈ insert task e.tasks.live, t ≠ u →
      (runqueue.start_task w task e).run_stamp t ≠ (runqueue.start_task w task e).run_stamp u := by
    intro t ht u hu htu
    rcases Finset.mem_insert.mp ht with rfl | hold_t
    · rcases Finset.mem_insert.mp hu with rfl | hold_u
      · exact absurd rfl htu
      · rw [hself, hother u hold_u]
        exact (hold u hold_u).symm
    · rcases Finset.mem_insert.mp hu with rfl | hold_u
      · rw [hself, hother t hold_t]
        exact hold t hold_t
      · rw [hother t hold_t, hother u hold_u]
        exact h.normal t hold_t u hold_u htu
  have hboth : ∀ t ∈ e.scene.sq_live, ∀ u ∈ insert task e.tasks.live,
      e.scene.stamps t ≠ (runqueue.start_task w task e).run_stamp u := by
    intro t ht u hu
    rcases Finset.mem_insert.mp hu with rfl | hu
    · rw [hself]
      exact hapart.2.1 t ht
    · rw [hother u hu]
      exact h.both t ht u hu
  have hentered : ∀ t ∈ insert task e.tasks.live,
      (t, (runqueue.start_task w task e).run_stamp t) ∈
        e.build_stamps.set task (w.stampfile task) := by
    intro t ht
    rcases Finset.mem_insert.mp ht with rfl | ht
    · rw [hself]
      exact OrderedDict.mem_set_self _ _ _
    · rw [hother t ht]
      exact OrderedDict.mem_set_of_ne _ (h.entered t ht) (hne t ht)
  have hvariant : ∀ t ∈ e.scene.sq_live, t ∉ insert task e.tasks.live := by
    intro t ht hin
    rcases Finset.mem_insert.mp hin with rfl | hin
    · exact hapart.1 ht
    · exact h.one_variant t ht hin
  exact {
    scene := h.scene
    normal := hnormal
    both := hboth
    entered := hentered
    one_variant := hvariant
    running := Finset.insert_subset_insert _ h.running }

theorem Guarded.start_setscene (h : Guarded e) {task : Tid} (hapart : SceneApart e task)
    (hfree : e.scene.stamps task ∉ e.build_stamps.map Prod.snd) :
    Guarded (start_setscene w task e) := by
  have hscene : ∀ t ∈ insert task e.scene.sq_live, ∀ u ∈ insert task e.scene.sq_live, t ≠ u →
      e.scene.stamps t ≠ e.scene.stamps u := by
    intro t ht u hu htu
    rcases Finset.mem_insert.mp ht with rfl | hold_t
    · rcases Finset.mem_insert.mp hu with rfl | hold_u
      · exact absurd rfl htu
      · exact (hapart.2 u hold_u).symm
    · rcases Finset.mem_insert.mp hu with rfl | hold_u
      · exact hapart.2 t hold_t
      · exact h.scene t hold_t u hold_u htu
  have hboth : ∀ t ∈ insert task e.scene.sq_live, ∀ u ∈ e.tasks.live,
      e.scene.stamps t ≠ e.run_stamp u := by
    intro t ht u hu
    rcases Finset.mem_insert.mp ht with rfl | ht
    · intro heq
      exact hfree (heq ▸ List.mem_map_of_mem (f := Prod.snd) (h.entered u hu))
    · exact h.both t ht u hu
  have hne : ∀ t ∈ e.tasks.live, t ≠ task := by
    rintro t ht rfl
    exact hapart.1 ht
  exact {
    scene := hscene
    normal := h.normal
    both := hboth
    entered := fun t ht => OrderedDict.mem_set_of_ne _ (h.entered t ht) (hne t ht)
    one_variant := by
      intro t ht
      rcases Finset.mem_insert.mp ht with rfl | ht
      · exact hapart.1
      · exact h.one_variant t ht
    running := h.running }

theorem Guarded.ran (h : Guarded e) {task : Tid} (hnot : task ∉ e.tasks.runq_running)
    (hfree : e.sched_stamps task ∉ e.build_stamps.map Prod.snd)
    (hapart : HasWork cfg w e task → ¬ spawn_fails cfg w task → TaskApart w e task)
    (hran : Ran cfg sq w task e e') : Guarded e' := by
  cases hran with
  | ignored _ => exact h.same ⟨rfl, rfl, rfl, rfl, rfl⟩ (Finset.erase_subset _ _) subset_rfl
  | covered _ => exact h.task_skip task
  | existing _ hu =>
    subst hu
    exact (h.task_skip task).same ⟨rfl, rfl, rfl, rfl, rfl⟩ subset_rfl subset_rfl
  | noexec _ =>
    have hput : Guarded { e with tasks := { put_running task e.tasks with
        stats := (put_running task e.tasks).stats.taskActive } } :=
      h.same ⟨rfl, rfl, rfl, rfl, rfl⟩ subset_rfl (Finset.subset_insert _ _)
    exact hput.task_complete task
  | unspawned _ _ => exact h.same ⟨rfl, rfl, rfl, rfl, rfl⟩ subset_rfl subset_rfl
  | started hwork hspawn => exact h.start_task hnot hfree (hapart hwork hspawn)

theorem Guarded.reply (h : Guarded e) (task : Tid) (success : Bool) :
    Guarded (runqueue_process_waitpid cfg sq w task success e) := by
  have hdel : ∀ x ∈ e.build_stamps, x.1 ≠ task → x ∈ e.build_stamps.del task :=
    fun x hx hne => List.mem_filter.mpr ⟨hx, by simpa using hne⟩
  unfold runqueue_process_waitpid
  dsimp only
  split
  · rename_i hlive
    have hfewer : ∀ u : Exec Tid Stamp, u.tasks = e.tasks → u.scene.sq_live = e.scene.sq_live →
        u.scene.stamps = e.scene.stamps → u.run_stamp = e.run_stamp →
        u.build_stamps = e.build_stamps.del task →
        Guarded { u with scene := { u.scene with sq_live := u.scene.sq_live.erase task } } := by
      intro u htasks hscene hstamps hrun hbuild
      apply h.fewer
      · dsimp only
        rw [hscene]
        exact Finset.erase_subset _ _
      · rw [htasks]
      · rw [htasks]
      · intro t _
        exact congrFun hstamps t
      · exact hrun
      · intro x hx hin
        dsimp only at hin ⊢
        rw [hbuild]
        apply hdel x hx
        rintro rfl
        rw [htasks] at hin
        exact h.one_variant x.1 hlive hin
    cases success with
    | true => exact hfewer _ rfl rfl rfl rfl rfl
    | false =>
      simp only [Bool.false_eq_true, ↓reduceIte]
      obtain ⟨N, hm, -⟩ := scenequeue_updatecounters_marks cfg sq w
        (cfg.runtaskentries.length + 1) task true (add_notcovered task e.scene)
      unfold sq_check_taskfail
      split
      · split
        · exact hfewer _ rfl hm.live hm.stamps rfl rfl
        · exact hfewer _ rfl hm.live hm.stamps rfl rfl
      · exact hfewer _ rfl hm.live hm.stamps rfl rfl
  · -- a normal task, which is at no worker then
    have hgone : Guarded { e with
        build_stamps := e.build_stamps.del task
        tasks := { e.tasks with live := e.tasks.live.erase task } } := by
      apply h.fewer
      · exact subset_rfl
      · exact Finset.erase_subset _ _
      · exact subset_rfl
      · exact fun _ _ => rfl
      · rfl
      · intro x hx hin
        exact hdel x hx (Finset.ne_of_mem_erase hin)
    split
    · obtain ⟨new, heq, -⟩ := complete_task_spec cfg task
        { e.tasks with stats := e.tasks.stats.taskCompleted }
      have htasks : (runqueue.task_complete cfg sq w task
          { e with build_stamps := e.build_stamps.del task }).tasks =
          { complete_task cfg task { e.tasks with stats := e.tasks.stats.taskCompleted } with
            runq_tasksrun := insert task (complete_task cfg task
              { e.tasks with stats := e.tasks.stats.taskCompleted }).runq_tasksrun
            live := (complete_task cfg task
              { e.tasks with stats := e.tasks.stats.taskCompleted }).live.erase task } := rfl
      have hsame := task_complete_same cfg sq w task
        { e with build_stamps := e.build_stamps.del task }
      apply hgone.same ⟨hsame.sq_live, hsame.stamps, hsame.build_stamps, hsame.run_stamp,
        hsame.sched_stamps⟩
      · rw [htasks, heq]
      · rw [htasks, heq]
    · exact hgone.same ⟨rfl, rfl, rfl, rfl, rfl⟩ subset_rfl subset_rfl

variable [DecidableEq Stamp]

theorem Guarded.setscene_part (h : Guarded e)
    (hapart : ∀ task, (find_setscene cfg sq w e).2 = .start task → SceneApart e task) :
    Guarded (setscene_part cfg sq w e).1 := by
  have hmarks := find_setscene_marks cfg sq w e
  have hscene : ∀ c : SceneState Tid Stamp, c.sq_live = e.scene.sq_live →
      c.stamps = e.scene.stamps → Guarded { e with scene := c } := by
    intro c hl hst
    exact h.same ⟨hl, hst, rfl, rfl, rfl⟩ subset_rfl subset_rfl
  unfold runqueue.setscene_part
  split
  · rename_i heq
    rw [heq] at hmarks
    exact hscene _ hmarks.live hmarks.stamps
  · rename_i scene task heq
    have hfound : (find_setscene cfg sq w e).2.task = some task := by
      rw [heq]
      rfl
    have hfree := (find_setscene_task hfound).2.1
    have hstart := hapart task (by rw [heq])
    rw [heq] at hmarks
    apply (hscene scene hmarks.live hmarks.stamps).start_setscene
    · refine ⟨hstart.1, ?_⟩
      dsimp only
      rw [hmarks.live, hmarks.stamps]
      exact hstart.2
    · dsimp only
      rw [hmarks.stamps]
      exact hfree
  · rename_i scene choice _ _ heq
    rw [heq] at hmarks
    obtain ⟨C, N, hm, -⟩ := settle_marks cfg sq w scene choice
    exact hscene _ (hm.live.trans hmarks.live) (hm.stamps.trans hmarks.stamps)

theorem Guarded.step {a : Action Tid Stamp} (h : Guarded e) (hapart : StartsApart cfg sq e a)
    (hstep : step cfg sq e a = some e') : Guarded e' := by
  unfold runqueue.step at hstep
  cases a with
  | execute w =>
    dsimp only at hstep
    split at hstep
    · have hfirst : Guarded (first_parts cfg sq w e).1 := by
        apply first_parts_keep (I := Guarded)
        · exact h.migrated
        · exact fun hmigrated => hmigrated.setscene_part hapart.1
        · intro u hu
          have ht := update_holdofftasks_tasks cfg sq u
          exact hu.same (update_holdofftasks_same cfg sq u) (by rw [ht.live]) (by rw [ht.running])
        · intro u hu
          exact hu.same (scene_done_same cfg u) (by rw [scene_done_tasks])
            (by rw [scene_done_tasks])
      apply execute_ends (I := Guarded) hstep hfirst
      · intro hend honly task hnext
        obtain ⟨-, hcandidate, hfree⟩ := sched_next_spec hnext
        simp only [candidates, Finset.mem_inter, Finset.mem_sdiff] at hcandidate
        exact hfirst.ran hcandidate.1.1.2 hfree (hapart.2 hend honly task hnext)
          (run_task_ran cfg sq w task _)
      · intro u hu
        exact hu.same (wind_up_same cfg u) (by rw [wind_up_tasks]) (by rw [wind_up_tasks])
    · cases hstep
  | finish =>
    obtain rfl := Option.some.inj hstep
    unfold finish
    split
    · exact h.same ⟨rfl, rfl, rfl, rfl, rfl⟩ subset_rfl subset_rfl
    · split <;> exact h.same ⟨rfl, rfl, rfl, rfl, rfl⟩ subset_rfl subset_rfl
  | finish_now =>
    obtain rfl := Option.some.inj hstep
    unfold finish_now
    split <;> exact h.same ⟨rfl, rfl, rfl, rfl, rfl⟩ subset_rfl subset_rfl
  | reply w task success =>
    dsimp only at hstep
    split at hstep
    · obtain rfl := Option.some.inj hstep
      exact h.reply task success
    · cases hstep
  | unihash_update task unihash =>
    obtain rfl := Option.some.inj hstep
    exact h.same ⟨rfl, rfl, rfl, rfl, rfl⟩ subset_rfl subset_rfl

/-- In a run whose starts keep the stamps apart, no two tasks at a worker have one stamp. -/
theorem no_two_tasks_run_for_one_stamp {q : SQRunQueue Tid}
    (h : Reaches (step cfg sq) (StartsApart cfg sq) (start cfg sq w q) e) : Apart e := by
  have hguarded : Guarded e := by
    apply h.invariant (I := Guarded)
    · have hlive : (start cfg sq w q).scene.sq_live = ∅ := by
        unfold start
        dsimp only
        split <;> exact (update_scenequeue_data_marks cfg sq w _ _).choose_spec.1.live
      have hnone : (start cfg sq w q).tasks.live = ∅ := rfl
      constructor
      · constructor <;> simp [hlive, hnone]
      · simp [hnone]
      · simp [hnone]
      · simp [hnone]
    · exact fun _ _ _ hs hok hstep => hs.step hok hstep
  exact hguarded.toApart

/-! ## Two runs -/

def sharedStamp : Config (Fin 2) where
  runtaskentries := [0, 1]
  depends := fun _ => []
  revdeps := fun _ => []
  closed := @apart_closed
  matching := @apart_matching
  runq_setscene_tids := [0, 1]
  target_tids := [0, 1]
  hard_deptids := fun _ => []
  setscene_mem := by decide
  sorted_tids := [0, 1]
  mc_sorted_tids := [0, 1]
  taskname := fun _ => []
  pn := ![text "first", text "second"]
  noexec := fun _ => false
  fakeroot := fun _ => false
  number_threads := fun _ => none
  prio_map := [0, 1]
  number_tasks := 4
  halt := true
  force := false
  skipsetscene := false
  setsceneonly := false
  dry_run := false
  setscene_enforce := false
  setscene_ignore_tasks := none

def sharedWorld : World (Fin 2) (Fin 2) :=
  { emptyWorld with stampfile := fun _ => 0, setscene_stampfile := fun _ => 1 }

def sharedBuilt : SQData (Fin 2) × SQRunQueue (Fin 2) :=
  (build_scenequeue_data sharedStamp.toRunQueueData).toOption.get (by decide)

def sharedStart : Exec (Fin 2) (Fin 2) := start sharedStamp sharedBuilt.1 sharedWorld sharedBuilt.2

theorem one_setscene_task_runs :
    ∃ e : Exec (Fin 2) (Fin 2), e.scene.sq_live = {0} ∧ Apart e :=
  ⟨(runOk (step sharedStamp sharedBuilt.1) (StartsApart sharedStamp sharedBuilt.1) sharedStart
    [.execute sharedWorld]).get (by decide), by decide,
    no_two_tasks_run_for_one_stamp (.of_runOk (Option.some_get _).symm)⟩

/-- The setscene stamp of task 0 is in `build_stamps`, so that the look-up for the stamp of task 1
finds nothing, though task 0 runs for that stamp. -/
theorem two_setscene_tasks_run_for_one_stamp :
    ∃ e : Exec (Fin 2) (Fin 2),
      Reaches (step sharedStamp sharedBuilt.1) anyStep sharedStart e ∧
      0 ∈ e.scene.sq_live ∧ 1 ∈ e.scene.sq_live ∧ e.scene.stamps 0 = e.scene.stamps 1 :=
  ⟨(runAll (step sharedStamp sharedBuilt.1) sharedStart
    [.execute sharedWorld, .execute sharedWorld]).get (by decide), .of_isSome (by decide),
    by decide, by decide, by decide⟩

end yocto.stamp_guards
