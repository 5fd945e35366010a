-- The normal tasks of a run: each one is put in `runq_running` once, and only when all that it
-- depends on is complete.
import Yocto.RunQueueSteps

open yocto.task_graph yocto.scenequeue yocto.runqueue yocto.runs

namespace yocto.task_safety

variable {Tid Stamp : Type} [DecidableEq Tid]
variable {cfg : Config Tid} {sq : SQData Tid} {w : World Tid Stamp}

/-! ## The invariant -/

/-- What holds of the normal tasks in every state. -/
structure Safe (cfg : Config Tid) (t : TaskState Tid) : Prop where
  ready : ∀ x ∈ t.runq_buildable, ∀ dep ∈ cfg.depends x, dep ∈ t.runq_complete
  scheduled : t.sched_buildable ⊆ t.runq_buildable
  once : (t.puts.map Prod.fst).Nodup
  put : ∀ x, x ∈ t.runq_running ↔ x ∈ t.puts.map Prod.fst
  after : ∀ x ∈ t.puts, ∀ dep ∈ cfg.depends x.1, dep ∈ x.2
  held : ∀ x ∈ t.puts, x.2 ⊆ t.runq_complete

variable {t t' : TaskState Tid}

omit [DecidableEq Tid] in
theorem Safe.congr (h : Safe cfg t) (hb : t'.runq_buildable = t.runq_buildable)
    (hs : t'.sched_buildable = t.sched_buildable) (hr : t'.runq_running = t.runq_running)
    (hc : t'.runq_complete = t.runq_complete) (hp : t'.puts = t.puts) : Safe cfg t' where
  ready := by rw [hb, hc]; exact h.ready
  scheduled := by rw [hb, hs]; exact h.scheduled
  once := by rw [hp]; exact h.once
  put := by rw [hp, hr]; exact h.put
  after := by rw [hp]; exact h.after
  held := by rw [hp, hc]; exact h.held

theorem Safe.buildable (h : Safe cfg t) {new : Finset Tid}
    (hnew : ∀ x ∈ new, ∀ dep ∈ cfg.depends x, dep ∈ t.runq_complete) :
    Safe cfg { t with
      runq_buildable := t.runq_buildable ∪ new, sched_buildable := t.sched_buildable ∪ new } :=
  { h with
    ready := by
      intro x hx
      rcases Finset.mem_union.mp hx with hx | hx
      · exact h.ready x hx
      · exact hnew x hx
    scheduled := Finset.union_subset_union_left h.scheduled }

theorem Safe.may_run (h : Safe cfg t) {task : Tid} (hb : task ∈ t.runq_buildable)
    (hr : task ∉ t.runq_running) : Safe cfg (put_running task t) :=
  { h with
    once := List.nodup_cons.mpr ⟨fun hin => hr ((h.put task).mpr hin), h.once⟩
    put := by
      intro x
      simp only [put_running, Finset.mem_insert, List.map_cons, List.mem_cons, h.put]
    after := by
      intro x hx
      rcases List.mem_cons.mp hx with rfl | hx
      · exact h.ready task hb
      · exact h.after x hx
    held := by
      intro x hx
      rcases List.mem_cons.mp hx with rfl | hx
      · exact Finset.Subset.refl _
      · exact h.held x hx }

/-! ## A task that is complete -/

theorem complete_task_spec (cfg : Config Tid) (task : Tid) (t : TaskState Tid) :
    ∃ new : Finset Tid, complete_task cfg task t =
      { t with
        runq_complete := insert task t.runq_complete
        runq_buildable := t.runq_buildable ∪ new
        sched_buildable := t.sched_buildable ∪ new } ∧
      ∀ x ∈ new, ∀ dep ∈ cfg.depends x, dep ∈ insert task t.runq_complete := by
  unfold complete_task
  generalize cfg.revdeps task = revdeps
  dsimp only
  have hloop : ∀ (l : List Tid) (u : TaskState Tid), ∃ new : Finset Tid,
      l.foldl (fun s revdep =>
        if revdep ∈ s.runq_running then s
        else if revdep ∈ s.runq_buildable then s
        else if ∀ dep ∈ cfg.depends revdep, dep ∈ s.runq_complete then setbuildable revdep s
        else s) u =
      { u with
        runq_buildable := u.runq_buildable ∪ new, sched_buildable := u.sched_buildable ∪ new } ∧
      ∀ x ∈ new, ∀ dep ∈ cfg.depends x, dep ∈ u.runq_complete := by
    intro l
    induction l with
    | nil => exact fun u => ⟨∅, by simp, by simp⟩
    | cons revdep l ih =>
      intro u
      rw [List.foldl_cons]
      by_cases hrun : revdep ∈ u.runq_running
      · rw [if_pos hrun]
        exact ih u
      · rw [if_neg hrun]
        by_cases hbuild : revdep ∈ u.runq_buildable
        · rw [if_pos hbuild]
          exact ih u
        · rw [if_neg hbuild]
          by_cases hall : ∀ dep ∈ cfg.depends revdep, dep ∈ u.runq_complete
          · rw [if_pos hall]
            obtain ⟨new, heq, hnew⟩ := ih (setbuildable revdep u)
            refine ⟨insert revdep new, ?_, ?_⟩
            · rw [heq]
              simp only [setbuildable, Finset.insert_union, Finset.union_insert]
            · intro x hx
              rcases Finset.mem_insert.mp hx with rfl | hx
              · exact hall
              · exact hnew x hx
          · rw [if_neg hall]
            exact ih u
  obtain ⟨new, heq, hnew⟩ := hloop revdeps { t with runq_complete := insert task t.runq_complete }
  exact ⟨new, heq, hnew⟩

theorem Safe.complete_task (h : Safe cfg t) (task : Tid) : Safe cfg (complete_task cfg task t) := by
  obtain ⟨new, heq, hnew⟩ := complete_task_spec cfg task t
  rw [heq]
  have hmore : Safe cfg { t with runq_complete := insert task t.runq_complete } :=
    { h with
      ready := fun x hx dep hdep => Finset.mem_insert_of_mem (h.ready x hx dep hdep)
      held := fun x hx => (h.held x hx).trans (Finset.subset_insert _ _) }
  exact hmore.buildable hnew

theorem complete_task_complete (task : Tid) (t : TaskState Tid) :
    (complete_task cfg task t).runq_complete = insert task t.runq_complete := by
  obtain ⟨new, heq, -⟩ := complete_task_spec cfg task t
  rw [heq]

/-! ## The parts before the normal tasks -/

/-- The normal tasks are left alone, but that tasks that are ready become buildable. -/
structure Prepared (cfg : Config Tid) (t t' : TaskState Tid) : Prop where
  safe : Safe cfg t → Safe cfg t'
  complete : t'.runq_complete = t.runq_complete
  running : t'.runq_running = t.runq_running
  live : t'.live = t.live
  puts : t'.puts = t.puts
  stats : t'.stats = t.stats

omit [DecidableEq Tid] in
theorem Prepared.refl (t : TaskState Tid) : Prepared cfg t t := ⟨id, rfl, rfl, rfl, rfl, rfl⟩

omit [DecidableEq Tid] in
theorem Prepared.failed (failed : List Tid) (t : TaskState Tid) :
    Prepared cfg t { t with failed_tids := failed } :=
  ⟨fun h => h.congr rfl rfl rfl rfl rfl, rfl, rfl, rfl, rfl, rfl⟩

theorem migrated_tasks (e : Exec Tid Stamp) :
    Prepared cfg e.tasks (migrated cfg sq w e).tasks := by
  unfold migrated
  split
  · obtain ⟨hsame, -⟩ := process_possible_migrations_spec cfg sq w e
    obtain ⟨failed, hfailed⟩ := (migration_spec cfg sq w e).tasks
    rw [hsame.tasks, hfailed]
    exact .failed failed e.tasks
  · exact .refl e.tasks

theorem update_holdofftasks_tasks (cfg : Config Tid) (sq : SQData Tid) (e : Exec Tid Stamp) :
    Prepared cfg e.tasks (update_holdofftasks cfg sq e).tasks := by
  unfold update_holdofftasks
  split
  · exact .refl e.tasks
  · refine ⟨fun h => ?_, rfl, rfl, rfl, rfl, rfl⟩
    apply h.buildable
    intro x hx
    exact (Finset.mem_filter.mp hx).2

theorem scene_done_tasks (e : Exec Tid Stamp) : (scene_done cfg e).1.tasks = e.tasks := by
  unfold scene_done
  split
  · split
    · rfl
    · split
      · rfl
      · dsimp only
        split <;> rfl
  · rfl

theorem wind_up_tasks (e : Exec Tid Stamp) : (wind_up cfg e).tasks = e.tasks := by
  unfold wind_up
  split
  · rfl
  · split
    · rfl
    · split
      · rfl
      · split <;> rfl

theorem wind_up_tasks_covered (e : Exec Tid Stamp) :
    (wind_up cfg e).scene.tasks_covered = e.scene.tasks_covered := by
  unfold wind_up
  split
  · rfl
  · split
    · rfl
    · split
      · rfl
      · split <;> rfl

section

variable [DecidableEq Stamp]

theorem setscene_part_tasks (e : Exec Tid Stamp) : (setscene_part cfg sq w e).1.tasks = e.tasks := by
  unfold setscene_part
  split <;> rfl

theorem first_parts_tasks (cfg : Config Tid) (sq : SQData Tid) (w : World Tid Stamp)
    (e : Exec Tid Stamp) :
    Prepared cfg e.tasks (first_parts cfg sq w e).1.tasks := by
  apply first_parts_keep (I := fun u => Prepared cfg e.tasks u.tasks)
  · exact migrated_tasks e
  · intro h
    rw [setscene_part_tasks]
    exact h
  · intro u h
    have hu := update_holdofftasks_tasks cfg sq u
    exact ⟨hu.safe ∘ h.safe, hu.complete.trans h.complete, hu.running.trans h.running,
      hu.live.trans h.live, hu.puts.trans h.puts, hu.stats.trans h.stats⟩
  · intro u h
    rw [scene_done_tasks]
    exact h

end

/-! ## Steps -/

theorem Safe.task_skip {e : Exec Tid Stamp} (h : Safe cfg e.tasks) {task : Tid}
    (hb : task ∈ e.tasks.runq_buildable) (hr : task ∉ e.tasks.runq_running) :
    Safe cfg (task_skip cfg sq w task e).tasks := by
  have hput := h.may_run hb hr
  have hset : Safe cfg (setbuildable task (put_running task e.tasks)) :=
    { hput with
      ready := by
        intro x hx
        rcases Finset.mem_insert.mp hx with rfl | hx
        · exact h.ready x hb
        · exact h.ready x hx
      scheduled := Finset.insert_subset_insert _ h.scheduled }
  exact (hset.complete_task task).congr rfl rfl rfl rfl rfl

theorem Safe.task_complete {e : Exec Tid Stamp} (h : Safe cfg e.tasks) (task : Tid) :
    Safe cfg (task_complete cfg sq w task e).tasks := by
  have hstats : Safe cfg { e.tasks with stats := e.tasks.stats.taskCompleted } :=
    h.congr rfl rfl rfl rfl rfl
  exact (hstats.complete_task task).congr rfl rfl rfl rfl rfl

theorem Safe.ran {e e' : Exec Tid Stamp} (h : Safe cfg e.tasks) {task : Tid}
    (hb : task ∈ e.tasks.runq_buildable) (hr : task ∉ e.tasks.runq_running)
    (hran : Ran cfg sq w task e e') : Safe cfg e'.tasks := by
  cases hran with
  | ignored _ => exact h.congr rfl rfl rfl rfl rfl
  | covered _ => exact h.task_skip hb hr
  | existing _ hu =>
    subst hu
    exact (h.task_skip hb hr).congr rfl rfl rfl rfl rfl
  | noexec _ =>
    have hactive : Safe cfg { put_running task e.tasks with
        stats := (put_running task e.tasks).stats.taskActive } :=
      (h.may_run hb hr).congr rfl rfl rfl rfl rfl
    exact Safe.task_complete (e := { e with tasks := _ }) hactive task
  | unspawned _ _ => exact h.congr rfl rfl rfl rfl rfl
  | started _ _ => exact (h.may_run hb hr).congr rfl rfl rfl rfl rfl

variable [DecidableEq Stamp] in
theorem Safe.execute {e e' : Exec Tid Stamp} (h : Safe cfg e.tasks)
    (hstep : execute cfg sq w e = some e') : Safe cfg e'.tasks := by
  have hfirst := (first_parts_tasks cfg sq w e).safe h
  apply execute_ends (I := fun u => Safe cfg u.tasks) hstep hfirst
  · intro _ _ task hnext
    obtain ⟨-, hcandidate, -⟩ := sched_next_spec hnext
    simp only [candidates, Finset.mem_inter, Finset.mem_sdiff] at hcandidate
    exact hfirst.ran (hfirst.scheduled hcandidate.1.1.1) hcandidate.1.1.2
      (run_task_ran cfg sq w task _)
  · intro u hu
    rw [wind_up_tasks]
    exact hu

theorem Safe.reply {e : Exec Tid Stamp} (h : Safe cfg e.tasks) (task : Tid) (success : Bool) :
    Safe cfg (runqueue_process_waitpid cfg sq w task success e).tasks := by
  unfold runqueue_process_waitpid
  dsimp only
  split
  · split
    · exact h
    · unfold sq_check_taskfail
      split
      · split <;> exact h
      · exact h
  · split
    · exact Safe.task_complete (e := { e with build_stamps := e.build_stamps.del task }) h task
    · exact h.congr rfl rfl rfl rfl rfl

variable [DecidableEq Stamp] in
theorem Safe.step {e e' : Exec Tid Stamp} {a : Action Tid Stamp} (h : Safe cfg e.tasks)
    (hstep : step cfg sq e a = some e') : Safe cfg e'.tasks := by
  unfold runqueue.step at hstep
  cases a with
  | execute w =>
    dsimp only at hstep
    split at hstep
    · exact h.execute hstep
    · cases hstep
  | finish =>
    obtain rfl := Option.some.inj hstep
    unfold finish
    split
    · exact h
    · split <;> exact h
  | finish_now =>
    obtain rfl := Option.some.inj hstep
    unfold finish_now
    split <;> exact h
  | reply w task success =>
    dsimp only at hstep
    split at hstep
    · obtain rfl := Option.some.inj hstep
      exact h.reply task success
    · cases hstep
  | unihash_update task unihash =>
    obtain rfl := Option.some.inj hstep
    exact h

/-! ## The start -/

theorem unskippable_loop_buildable (rq : RunQueueData Tid) (turns : Nat)
    {orig buildable unskippable buildable' : Finset Tid}
    (h : unskippable_loop rq turns orig buildable = some (unskippable, buildable'))
    (hfree : ∀ x ∈ buildable, rq.depends x = []) : ∀ x ∈ buildable', rq.depends x = [] := by
  induction turns generalizing orig buildable with
  | zero => cases h
  | succ turns ih =>
    have hmore : ∀ x ∈ buildable ∪ (orig.filter (· ∉ rq.runq_setscene_tids)).filter
        (rq.depends · = []), rq.depends x = [] := by
      intro x hx
      rcases Finset.mem_union.mp hx with hx | hx
      · exact hfree x hx
      · exact (Finset.mem_filter.mp hx).2
    unfold unskippable_loop at h
    dsimp only at h
    split at h
    · obtain ⟨-, rfl⟩ := Prod.mk.inj (Option.some.inj h)
      exact hmore
    · exact ih h hmore

theorem build_scenequeue_data_buildable {rq : RunQueueData Tid} {q : SQRunQueue Tid}
    (h : build_scenequeue_data rq = .ok (sq, q)) : ∀ x ∈ q.buildable, rq.depends x = [] := by
  unfold build_scenequeue_data at h
  dsimp only at h
  split at h
  · cases h
  · split at h
    · cases h
    · rename_i hloop
      split at h
      · cases h
      · split at h
        · cases h
        · cases h
          exact unskippable_loop_buildable rq _ hloop (by simp)

theorem Safe.start {q : SQRunQueue Tid}
    (h : build_scenequeue_data cfg.toRunQueueData = .ok (sq, q)) (w : World Tid Stamp) :
    Safe cfg (start cfg sq w q).tasks where
  ready := by
    intro x hx dep hdep
    have hfree : cfg.depends x = [] := by
      unfold runqueue.start at hx
      dsimp only at hx
      split at hx
      · rcases Finset.mem_union.mp hx with hx | hx
        · exact build_scenequeue_data_buildable h x hx
        · exact (Finset.mem_filter.mp hx).2
      · exact build_scenequeue_data_buildable h x hx
    rw [hfree] at hdep
    cases hdep
  scheduled := Finset.Subset.refl _
  once := List.nodup_nil
  put := by simp [runqueue.start]
  after := by simp [runqueue.start]
  held := by simp [runqueue.start]

/-! ## The law -/

/-- How a task became complete in a step from `e` to `e'`: a worker that ran it said that it
succeeded, or `execute` found nothing to run for it. -/
def Ended (cfg : Config Tid) (e e' : Exec Tid Stamp) (task : Tid) : Action Tid Stamp → Prop
  | .reply _ t success =>
    task = t ∧ success = true ∧ t ∈ e.tasks.live ∧ t ∉ e.scene.sq_live
  | .execute w =>
    cfg.noexec task = true ∨ task ∈ e'.scene.tasks_covered ∨ w.stamp_current task = true
  | .finish | .finish_now | .unihash_update _ _ => False

theorem task_skip_tasks_covered (task : Tid) (e : Exec Tid Stamp) :
    (task_skip cfg sq w task e).scene.tasks_covered = e.scene.tasks_covered := by
  obtain ⟨C, hC, -⟩ := release_deferred_marks cfg sq w task e.scene
  exact hC.tasks_covered

variable [DecidableEq Stamp]

theorem step_completes {e e' : Exec Tid Stamp} {a : Action Tid Stamp}
    (hstep : step cfg sq e a = some e') :
    e.tasks.runq_complete ⊆ e'.tasks.runq_complete ∧
      ∀ t ∈ e'.tasks.runq_complete, t ∉ e.tasks.runq_complete → Ended cfg e e' t a := by
  have hsame : ∀ u : Exec Tid Stamp, u.tasks.runq_complete = e.tasks.runq_complete →
      e.tasks.runq_complete ⊆ u.tasks.runq_complete ∧
        ∀ t ∈ u.tasks.runq_complete, t ∉ e.tasks.runq_complete → Ended cfg e u t a := by
    intro u hu
    rw [hu]
    exact ⟨Finset.Subset.refl _, fun t hin hnot => absurd hin hnot⟩
  unfold runqueue.step at hstep
  cases a with
  | execute w =>
    dsimp only at hstep
    split at hstep
    · have hfirst := (first_parts_tasks cfg sq w e).complete
      apply execute_ends (I := fun u => e.tasks.runq_complete ⊆ u.tasks.runq_complete ∧
        ∀ t ∈ u.tasks.runq_complete, t ∉ e.tasks.runq_complete → Ended cfg e u t (.execute w)) hstep
      · exact hsame _ hfirst
      · intro _ _ task _
        -- one more task is complete, for the reason by which `run_task` chose its branch
        have hone : ∀ u : Exec Tid Stamp,
            u.tasks.runq_complete = insert task (first_parts cfg sq w e).1.tasks.runq_complete →
            Ended cfg e u task (.execute w) → e.tasks.runq_complete ⊆ u.tasks.runq_complete ∧
              ∀ t ∈ u.tasks.runq_complete, t ∉ e.tasks.runq_complete →
                Ended cfg e u t (.execute w) := by
          intro u hu hended
          rw [hu, hfirst]
          refine ⟨Finset.subset_insert _ _, ?_⟩
          intro t hin hnot
          rcases Finset.mem_insert.mp hin with rfl | hin
          · exact hended
          · exact absurd hin hnot
        have hran := run_task_ran cfg sq w task (first_parts cfg sq w e).1
        generalize (run_task cfg sq w task (first_parts cfg sq w e).1).1 = u at hran
        cases hran with
        | ignored _ => exact hsame _ hfirst
        | covered hcovered =>
          apply hone _ (complete_task_complete task _)
          refine Or.inr (Or.inl ?_)
          rw [task_skip_tasks_covered]
          exact hcovered
        | existing hstamp hu =>
          subst hu
          exact hone _ (complete_task_complete task _) (Or.inr (Or.inr hstamp))
        | noexec hnoexec => exact hone _ (complete_task_complete task _) (Or.inl hnoexec)
        | unspawned _ _ => exact hsame _ hfirst
        | started _ _ => exact hsame _ hfirst
      · intro u hu
        rw [wind_up_tasks]
        refine ⟨hu.1, fun t hin hnot => ?_⟩
        rcases hu.2 t hin hnot with h | h | h
        · exact Or.inl h
        · refine Or.inr (Or.inl ?_)
          rw [wind_up_tasks_covered]
          exact h
        · exact Or.inr (Or.inr h)
    · cases hstep
  | finish =>
    obtain rfl := Option.some.inj hstep
    apply hsame
    unfold finish
    split
    · rfl
    · split <;> rfl
  | finish_now =>
    obtain rfl := Option.some.inj hstep
    apply hsame
    unfold finish_now
    split <;> rfl
  | reply w task success =>
    dsimp only at hstep
    split at hstep
    · rename_i hlive
      obtain rfl := Option.some.inj hstep
      unfold runqueue_process_waitpid
      dsimp only
      split
      · apply hsame
        dsimp only
        split
        · rfl
        · unfold sq_check_taskfail
          split
          · split <;> rfl
          · rfl
      · rename_i hscene
        split
        · rename_i hsuccess
          have hcomplete : (task_complete cfg sq w task
              { e with build_stamps := e.build_stamps.del task }).tasks.runq_complete =
              insert task e.tasks.runq_complete := complete_task_complete task _
          rw [hcomplete]
          refine ⟨Finset.subset_insert _ _, ?_⟩
          intro t hin hnot
          rcases Finset.mem_insert.mp hin with rfl | hin
          · exact ⟨rfl, hsuccess, hlive.resolve_left hscene, hscene⟩
          · exact absurd hin hnot
        · exact hsame _ rfl
    · cases hstep
  | unihash_update task unihash =>
    obtain rfl := Option.some.inj hstep
    exact hsame _ rfl

theorem apart_closed {t d : Fin 2} : d ∈ ([] : List (Fin 2)) → t ∈ [0, 1] ∧ d ∈ [0, 1] := by simp

theorem apart_matching {t d : Fin 2} : t ∈ ([] : List (Fin 2)) ↔ d ∈ ([] : List (Fin 2)) := by simp

theorem no_setscene : ∀ t ∈ ([] : List (Fin 2)), t ∈ [0, 1] := by simp

def twoTasks : Config (Fin 2) where
  runtaskentries := [0, 1]
  depends := ![[1], []]
  revdeps := ![[], [0]]
  closed := by decide
  matching := by decide
  runq_setscene_tids := []
  target_tids := [0]
  hard_deptids := fun _ => []
  setscene_mem := no_setscene
  sorted_tids := [0, 1]
  mc_sorted_tids := [0, 1]
  taskname := fun _ => []
  pn := fun _ => []
  noexec := fun _ => false
  fakeroot := fun _ => false
  number_threads := fun _ => none
  prio_map := [0, 1]
  number_tasks := 1
  halt := true
  force := false
  skipsetscene := false
  setsceneonly := false
  dry_run := false
  setscene_enforce := false
  setscene_ignore_tasks := none

def emptyWorld : World (Fin 2) (Fin 2) where
  stamp_current := fun _ => false
  stamp_current_recurse := fun _ => false
  setscene_stamp_current := fun _ => false
  validate_hashes := id
  depvalidate := fun _ => false
  fakeworker_fails := fun _ => false
  exceeds_max_pressure := false
  stampfile := id
  setscene_stampfile := id
  taskhash := fun _ => []
  unihash := fun _ => []

def built : SQData (Fin 2) × SQRunQueue (Fin 2) :=
  (build_scenequeue_data twoTasks.toRunQueueData).toOption.get (by decide)

def twoTasksRun : Exec (Fin 2) (Fin 2) :=
  (runAll (step twoTasks built.1) (start twoTasks built.1 emptyWorld built.2)
    [.execute emptyWorld, .reply emptyWorld 1 true, .execute emptyWorld]).get (by decide)

end yocto.task_safety
