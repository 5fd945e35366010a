-- What the state of the queue says about the tasks: `execute` reports a complete build only when
-- every task is complete, none has failed and nothing runs.
import Yocto.LiveTasks

open yocto.scenequeue yocto.runqueue yocto.runs yocto.task_safety yocto.live_tasks

namespace yocto.build_outcome

variable {Tid Stamp : Type} [DecidableEq Tid]
variable {cfg : Config Tid} {sq : SQData Tid} {w : World Tid Stamp} {e e' : Exec Tid Stamp}

/-! ## The tasks at a worker -/

/-- Complete tasks were started, and a task at a worker is one of the build that is not complete. -/
structure Accounted (cfg : Config Tid) (t : TaskState Tid) : Prop where
  complete : t.runq_complete ⊆ t.runq_running
  live : ∀ x ∈ t.live, x ∈ t.runq_running ∧ x ∉ t.runq_complete ∧ x ∈ cfg.runtaskentries

variable {t t' : TaskState Tid}

omit [DecidableEq Tid] in
theorem Accounted.congr (h : Accounted cfg t) (hc : t'.runq_complete = t.runq_complete)
    (hr : t'.runq_running = t.runq_running) (hl : t'.live ⊆ t.live) : Accounted cfg t' where
  complete := by rw [hc, hr]; exact h.complete
  live := by
    rw [hc, hr]
    exact fun x hx => h.live x (hl hx)

omit [DecidableEq Tid] in
theorem Accounted.prepared (h : Accounted cfg t) (hprepared : Prepared cfg t t') : Accounted cfg t' :=
  h.congr hprepared.complete hprepared.running hprepared.live.subset

/-- A task becomes complete that is started, and no longer at a worker. -/
theorem Accounted.completes (h : Accounted cfg t) (task : Tid)
    (hc : t'.runq_complete = insert task t.runq_complete)
    (hr : t'.runq_running = insert task t.runq_running)
    (hl : ∀ x ∈ t'.live, x ∈ t.live ∧ x ≠ task) : Accounted cfg t' where
  complete := by
    rw [hc, hr]
    exact Finset.insert_subset_insert _ h.complete
  live := by
    intro x hx
    obtain ⟨hlive, hne⟩ := hl x hx
    obtain ⟨hrunning, hopen, hentry⟩ := h.live x hlive
    rw [hc, hr]
    exact ⟨Finset.mem_insert_of_mem hrunning, by simp [hne, hopen], hentry⟩

theorem Accounted.task_skip (h : Accounted cfg e.tasks) {task : Tid} (hnot : task ∉ e.tasks.runq_running) :
    Accounted cfg (task_skip cfg sq w task e).tasks := by
  obtain ⟨-, hlive, hrunning⟩ := complete_task_stats cfg task (setbuildable task (put_running task e.tasks))
  apply h.completes task
  · exact complete_task_complete task _
  · exact hrunning
  · intro x hx
    have hin : x ∈ e.tasks.live := by
      rw [← show _ = e.tasks.live from hlive]
      exact hx
    exact ⟨hin, fun heq => hnot (heq ▸ (h.live x hin).1)⟩

/-- The task was started before, or is started with this step. -/
theorem Accounted.task_complete {u : Exec Tid Stamp} (h : Accounted cfg t) {task : Tid}
    (hc : u.tasks.runq_complete = t.runq_complete)
    (hr : u.tasks.runq_running = insert task t.runq_running) (hl : u.tasks.live = t.live) :
    Accounted cfg (task_complete cfg sq w task u).tasks := by
  obtain ⟨-, hlive, hrunning⟩ := complete_task_stats cfg task
    { u.tasks with stats := u.tasks.stats.taskCompleted }
  apply h.completes task
  · refine (complete_task_complete task _).trans ?_
    rw [← hc]
  · exact hrunning.trans hr
  · intro x hx
    obtain ⟨hne, hx⟩ := Finset.mem_erase.mp hx
    refine ⟨?_, hne⟩
    rw [← hl, ← show _ = u.tasks.live from hlive]
    exact hx

theorem Accounted.ran (h : Accounted cfg e.tasks) {task : Tid} (hnot : task ∉ e.tasks.runq_running)
    (hentry : task ∈ cfg.runtaskentries) (hran : Ran cfg sq w task e e') : Accounted cfg e'.tasks := by
  cases hran with
  | ignored _ => exact h.congr rfl rfl (Finset.erase_subset _ _)
  | covered _ => exact h.task_skip hnot
  | existing _ hu =>
    subst hu
    exact (h.task_skip hnot).congr rfl rfl (Finset.Subset.refl _)
  | noexec _ => exact h.task_complete rfl rfl rfl
  | unspawned _ _ => exact h.congr rfl rfl (Finset.Subset.refl _)
  | started _ _ =>
    refine ⟨h.complete.trans (Finset.subset_insert _ _), fun x hx => ?_⟩
    rcases Finset.mem_insert.mp hx with rfl | hx
    · exact ⟨Finset.mem_insert_self _ _, fun hc => hnot (h.complete hc), hentry⟩
    · obtain ⟨hrunning, hopen⟩ := h.live x hx
      exact ⟨Finset.mem_insert_of_mem hrunning, hopen⟩

theorem Accounted.reply (h : Accounted cfg e.tasks) {task : Tid} (success : Bool)
    (hlive : task ∈ e.scene.sq_live ∨ task ∈ e.tasks.live) :
    Accounted cfg (runqueue_process_waitpid cfg sq w task success e).tasks := by
  unfold runqueue_process_waitpid
  dsimp only
  split
  · split
    · exact h
    · unfold sq_check_taskfail
      split
      · split <;> exact h
      · exact h
  · rename_i hscene
    split
    · have hin := (h.live task (hlive.resolve_left hscene)).1
      exact h.task_complete (u := { e with build_stamps := e.build_stamps.del task }) rfl
        (Finset.insert_eq_self.mpr hin).symm rfl
    · exact h.congr rfl rfl (Finset.erase_subset _ _)

/-! ## The state of the queue -/

/-- All tasks are complete, none has failed, and nothing is at a worker. -/
structure Done (cfg : Config Tid) (e : Exec Tid Stamp) : Prop where
  complete : ∀ t ∈ cfg.runtaskentries, t ∈ e.tasks.runq_complete
  failed : e.tasks.failed_tids = []
  scene : e.scene.sq_live = ∅

/-- The invariant: a complete build is done. -/
structure Honest (cfg : Config Tid) (e : Exec Tid Stamp) : Prop where
  tasks : Accounted cfg e.tasks
  done : e.state = .runQueueComplete → Done cfg e

omit [DecidableEq Tid] in
theorem Honest.idle (h : Honest cfg e) (hstate : e.state = .runQueueComplete) : e.tasks.live = ∅ := by
  apply Finset.eq_empty_of_forall_notMem
  intro x hx
  obtain ⟨-, hopen, hentry⟩ := h.tasks.live x hx
  exact hopen ((h.done hstate).complete x hentry)

theorem Honest.wind_up (h : Honest cfg e) : Honest cfg (wind_up cfg e) := by
  refine ⟨by rw [wind_up_tasks]; exact h.tasks, ?_⟩
  unfold runqueue.wind_up
  split
  · exact h.done
  · rename_i hidle
    rw [not_or, not_not] at hidle
    split
    · intro hstate
      exact ⟨(h.done hstate).complete, (h.done hstate).failed, hidle.2⟩
    · split
      · intro hstate
        cases hstate
      · rename_i hfailed
        split
        · intro hstate
          cases hstate
        · rename_i hall
          refine fun _ => ⟨fun t ht => ?_, not_not.mp hfailed, hidle.2⟩
          by_contra hopen
          exact hall (Or.inr ⟨t, ht, Or.inr (Or.inr hopen)⟩)

theorem reply_state {task : Tid} {success : Bool} (h : e.state ≠ .runQueueComplete) :
    (runqueue_process_waitpid cfg sq w task success e).state ≠ .runQueueComplete := by
  unfold runqueue_process_waitpid
  dsimp only
  split
  · split
    · exact h
    · unfold sq_check_taskfail
      split
      · split
        · exact h
        · simp
      · exact h
  · split
    · exact h
    · unfold task_fail
      dsimp only
      split
      · simp
      · exact h

theorem migrated_state (h : e.state ≠ .runQueueComplete) :
    (migrated cfg sq w e).state ≠ .runQueueComplete := by
  have hloop : ∀ (l : List Tid) (u : Exec Tid Stamp) (update_tasks : List Tid), u.state ≠ .runQueueComplete →
      (migrate_loop cfg sq w l u update_tasks).1.state ≠ .runQueueComplete := by
    intro l
    induction l with
    | nil => exact fun _ _ hu => hu
    | cons tid later ih =>
      intro u update_tasks hu
      unfold migrate_loop
      split
      · exact ih _ _ hu
      · split
        · exact ih _ _ hu
        · dsimp only
          split
          · simp
          · exact ih _ _ hu
  unfold migrated
  split
  · rcases hmigration : migration cfg sq w e with ⟨u, update_tasks, ended⟩
    have hu : (migration cfg sq w e).1.state ≠ .runQueueComplete := hloop _ _ _ h
    rw [hmigration] at hu
    rw [process_possible_migrations_eq cfg sq w hmigration]
    split
    · split <;> exact hu
    · exact hu
  · exact h

theorem ran_state {task : Tid} (h : e.state ≠ .runQueueComplete) (hran : Ran cfg sq w task e e') :
    e'.state ≠ .runQueueComplete := by
  cases hran with
  | ignored _ =>
    unfold task_fail
    dsimp only
    split
    · simp
    · exact h
  | covered _ => exact h
  | existing _ hu =>
    subst hu
    exact h
  | noexec _ => exact h
  | unspawned _ _ => simp
  | started _ _ => exact h

variable [DecidableEq Stamp]

/-- The parts of `execute` before the normal tasks do not make a build complete. -/
theorem first_parts_state (hsome : cfg.runtaskentries ≠ []) (honly : cfg.setsceneonly = false)
    (h : e.state ≠ .runQueueComplete) : (first_parts cfg sq w e).1.state ≠ .runQueueComplete := by
  apply first_parts_keep (I := fun u => u.state ≠ .runQueueComplete)
  · exact migrated_state h
  · intro hu
    unfold setscene_part
    split <;> exact hu
  · intro u hu
    unfold update_holdofftasks
    split <;> exact hu
  · intro u hu
    unfold scene_done
    split
    · split
      · simp
      · rw [if_neg (by simp [honly])]
        simpa only [if_neg hsome] using hu
    · exact hu

theorem sched_next_entry (hprio : ∀ t ∈ cfg.prio_map, t ∈ cfg.runtaskentries) {task : Tid}
    (h : sched_next cfg w e = some (some task)) : task ∈ cfg.runtaskentries := by
  unfold sched_next at h
  split at h
  · unfold next_buildable_task at h
    split at h
    · cases h
    · split at h
      · cases h
      · dsimp only at h
        split at h
        · cases h
        · split at h
          · exact List.mem_of_find?_eq_some (Option.some.inj h)
          · split at h
            · exact hprio task (List.mem_of_find?_eq_some (Option.some.inj h))
            · cases h
  · cases h

/-- Nobody interrupts the build. -/
def Uninterrupted (_ : Exec Tid Stamp) : Action Tid Stamp → Prop
  | .finish | .finish_now => False
  | .execute _ | .reply _ _ _ | .unihash_update _ _ => True

instance (e : Exec Tid Stamp) : ∀ a, Decidable (Uninterrupted e a)
  | .finish | .finish_now => inferInstanceAs (Decidable False)
  | .execute _ | .reply _ _ _ | .unihash_update _ _ => inferInstanceAs (Decidable True)

theorem Honest.step (hsome : cfg.runtaskentries ≠ []) (honly : cfg.setsceneonly = false)
    (hprio : ∀ t ∈ cfg.prio_map, t ∈ cfg.runtaskentries) (h : Honest cfg e) {a : Action Tid Stamp}
    (hok : Uninterrupted e a) (hstep : step cfg sq e a = some e') : Honest cfg e' := by
  unfold runqueue.step at hstep
  cases a with
  | execute w =>
    dsimp only at hstep
    split at hstep
    · rename_i hrunning
      have hopen : e.state ≠ .runQueueComplete := by
        rcases hrunning with hstate | hstate <;> simp [hstate]
      have hfirst : (first_parts cfg sq w e).1.state ≠ .runQueueComplete := first_parts_state hsome honly hopen
      have htasks := h.tasks.prepared (first_parts_tasks cfg sq w e)
      apply execute_ends (I := Honest cfg) hstep
      · exact ⟨htasks, fun hstate => absurd hstate hfirst⟩
      · intro _ _ task hnext
        obtain ⟨-, hcandidate, -⟩ := sched_next_spec hnext
        simp only [candidates, Finset.mem_inter, Finset.mem_sdiff] at hcandidate
        have hran := run_task_ran cfg sq w task (first_parts cfg sq w e).1
        exact ⟨htasks.ran hcandidate.1.1.2 (sched_next_entry hprio hnext) hran,
          fun hstate => absurd hstate (ran_state hfirst hran)⟩
      · exact fun u hu => hu.wind_up
    · cases hstep
  | finish => exact hok.elim
  | finish_now => exact hok.elim
  | reply w task success =>
    dsimp only at hstep
    split at hstep
    · rename_i hlive
      obtain rfl := Option.some.inj hstep
      refine ⟨h.tasks.reply success hlive, fun hstate => ?_⟩
      -- a complete build has no task at a worker that could reply
      by_cases hcomplete : e.state = .runQueueComplete
      · rw [h.idle hcomplete, (h.done hcomplete).scene] at hlive
        simp at hlive
      · exact absurd hstate (reply_state hcomplete)
    · cases hstep
  | unihash_update task unihash =>
    obtain rfl := Option.some.inj hstep
    exact ⟨h.tasks, fun hstate => ⟨(h.done hstate).complete, (h.done hstate).failed, (h.done hstate).scene⟩⟩

/-- In a run that nobody interrupts, the queue is complete only when all tasks of the build are,
when none of them failed, and no worker has a task. -/
theorem a_complete_build_is_done {q : SQRunQueue Tid} (hsome : cfg.runtaskentries ≠ [])
    (honly : cfg.setsceneonly = false) (hprio : ∀ t ∈ cfg.prio_map, t ∈ cfg.runtaskentries)
    (h : Reaches (step cfg sq) Uninterrupted (start cfg sq w q) e) (hstate : e.state = .runQueueComplete) :
    (∀ t ∈ cfg.runtaskentries, t ∈ e.tasks.runq_complete ∧ t ∈ e.tasks.runq_running) ∧
      e.tasks.failed_tids = [] ∧ e.tasks.live = ∅ ∧ e.scene.sq_live = ∅ := by
  have hhonest : Honest cfg e := by
    apply h.invariant (I := Honest cfg)
    · refine ⟨⟨Finset.Subset.refl _, fun x hx => ?_⟩, fun hstart => ?_⟩
      · exact absurd hx (Finset.notMem_empty x)
      · cases hstart
    · exact fun _ _ _ hs hok hstep => hs.step hsome honly hprio hok hstep
  have hdone := hhonest.done hstate
  exact ⟨fun t ht => ⟨hdone.complete t ht, hhonest.tasks.complete (hdone.complete t ht)⟩, hdone.failed,
    hhonest.idle hstate, hdone.scene⟩

theorem two_tasks_are_done :
    ∃ e : Exec (Fin 2) (Fin 2), e.state = .runQueueComplete ∧
      (∀ t ∈ twoTasks.runtaskentries, t ∈ e.tasks.runq_complete ∧ t ∈ e.tasks.runq_running) ∧
      e.tasks.failed_tids = [] ∧ e.tasks.live = ∅ ∧ e.scene.sq_live = ∅ :=
  ⟨(runOk (step twoTasks built.1) Uninterrupted (start twoTasks built.1 emptyWorld built.2)
    [.execute emptyWorld, .reply emptyWorld 1 true, .execute emptyWorld, .reply emptyWorld 0 true,
      .execute emptyWorld]).get (by decide), by decide,
    a_complete_build_is_done (by decide) rfl (by decide) (.of_runOk (Option.some_get _).symm) (by decide)⟩

end yocto.build_outcome
