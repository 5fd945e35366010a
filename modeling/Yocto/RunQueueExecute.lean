-- `RunQueueExecute` of runqueue.py: the normal tasks, the replies of the workers, the
-- migration of setscene tasks whose hash changed, and `execute`, which starts at most one
-- setscene task and one normal task in each call.
import Yocto.RunQueueScene
import Yocto.Runs

open yocto.task_ids yocto.ordered_dict yocto.scenequeue yocto.runs

namespace yocto.runqueue

variable {Tid Stamp : Type} [DecidableEq Tid] [DecidableEq Stamp]

/-! ## The state -/

/-- The values of `rq.state` from the start of the tasks on. -/
inductive RunState
  | runQueueRunning
  | runQueueFailed
  | runQueueCleanUp
  | runQueueComplete
  deriving DecidableEq, Repr

/-- The counters of `RunQueueStats` that the normal tasks move. -/
structure RunQueueStats where
  completed : Int
  skipped : Int
  failed : Int
  active : Int
  deriving DecidableEq, Repr

structure TaskState (Tid : Type) where
  runq_buildable : Finset Tid
  sched_buildable : Finset Tid
  runq_running : Finset Tid
  runq_complete : Finset Tid
  runq_tasksrun : Finset Tid
  failed_tids : List Tid
  stats : RunQueueStats
  puts : List (Tid × Finset Tid)
  live : Finset Tid

/-- The executor. `run_stamp` is the stamp with which a normal task was started: nothing reads
it but the theorems. -/
structure Exec (Tid Stamp : Type) where
  scene : SceneState Tid Stamp
  tasks : TaskState Tid
  build_stamps : OrderedDict Tid Stamp
  sched_stamps : Tid → Stamp
  hash : Tid → Text
  unihash : Tid → Text
  updated_taskhash_queue : List (Tid × Text)
  pending_migrations : Finset Tid
  state : RunState
  run_stamp : Tid → Stamp

variable (cfg : Config Tid) (sq : SQData Tid) (w : World Tid Stamp)

/-! ## Statistics -/

def RunQueueStats.taskFailed (s : RunQueueStats) : RunQueueStats :=
  { s with active := s.active - 1, failed := s.failed + 1 }

def RunQueueStats.taskCompleted (s : RunQueueStats) : RunQueueStats :=
  { s with active := s.active - 1, completed := s.completed + 1 }

def RunQueueStats.taskSkipped (s : RunQueueStats) : RunQueueStats :=
  { s with active := s.active + 1, skipped := s.skipped + 1 }

def RunQueueStats.taskActive (s : RunQueueStats) : RunQueueStats :=
  { s with active := s.active + 1 }

/-! ## Normal tasks -/

def setbuildable (task : Tid) (s : TaskState Tid) : TaskState Tid :=
  { s with
    runq_buildable := insert task s.runq_buildable
    sched_buildable := insert task s.sched_buildable }

def put_running (task : Tid) (s : TaskState Tid) : TaskState Tid :=
  { s with
    runq_running := insert task s.runq_running
    puts := (task, s.runq_complete) :: s.puts }

/-- The first loop of `task_completeoutright`: the tasks that depend on the task and have no
other dependency left become buildable. -/
def complete_task (task : Tid) (s : TaskState Tid) : TaskState Tid :=
  let s := { s with runq_complete := insert task s.runq_complete }
  (cfg.revdeps task).foldl (fun s revdep =>
    if revdep ∈ s.runq_running then s
    else if revdep ∈ s.runq_buildable then s
    else if ∀ dep ∈ cfg.depends revdep, dep ∈ s.runq_complete then setbuildable revdep s
    else s) s

/-- The second loop of `task_completeoutright`: the first task that was deferred after the task
may run, and the others are deferred after that one. -/
def release_step (task : Tid) (acc : SceneState Tid Stamp × Option Tid) (t : Tid) :
    SceneState Tid Stamp × Option Tid :=
  let (s, found) := acc
  if s.sq_deferred.get? t = some task then
    match found with
    | none =>
      (update_scenequeue_data cfg sq w {t} { s with sq_deferred := s.sq_deferred.del t }, some t)
    | some first => ({ s with sq_deferred := s.sq_deferred.set t first }, found)
  else acc

def release_deferred (task : Tid) (s : SceneState Tid Stamp) : SceneState Tid Stamp :=
  ((cfg.sorted (s.sq_deferred.map Prod.fst).toFinset).foldl (release_step cfg sq w task) (s, none)).1

def task_completeoutright (task : Tid) (s : Exec Tid Stamp) : Exec Tid Stamp :=
  { s with
    tasks := complete_task cfg task s.tasks
    scene := release_deferred cfg sq w task s.scene }

def task_complete (task : Tid) (s : Exec Tid Stamp) : Exec Tid Stamp :=
  let s := { s with tasks := { s.tasks with stats := s.tasks.stats.taskCompleted } }
  let s := task_completeoutright cfg sq w task s
  { s with tasks := { s.tasks with
      runq_tasksrun := insert task s.tasks.runq_tasksrun
      live := s.tasks.live.erase task } }

def task_fail (task : Tid) (s : Exec Tid Stamp) : Exec Tid Stamp :=
  { s with
    tasks := { s.tasks with
      stats := s.tasks.stats.taskFailed
      failed_tids := s.tasks.failed_tids ++ [task]
      live := s.tasks.live.erase task }
    state := if cfg.halt then .runQueueCleanUp else s.state }

def task_skip (task : Tid) (s : Exec Tid Stamp) : Exec Tid Stamp :=
  let s := { s with tasks := setbuildable task (put_running task s.tasks) }
  let s := task_completeoutright cfg sq w task s
  { s with tasks := { s.tasks with stats := s.tasks.stats.taskSkipped.taskCompleted } }

/-! ## Replies -/

def sq_check_taskfail (task : Tid) (s : Exec Tid Stamp) : Exec Tid Stamp :=
  match cfg.setscene_ignore_tasks with
  | some ignored => if ignored task then s else { s with state := .runQueueCleanUp }
  | none => s

/-- `runqueue_process_waitpid`: a worker says that the task ended, with success or not. -/
def runqueue_process_waitpid (task : Tid) (success : Bool) (s : Exec Tid Stamp) : Exec Tid Stamp :=
  let s := { s with build_stamps := s.build_stamps.del task }
  if task ∈ s.scene.sq_live then
    let s := if success then { s with scene := sq_task_complete cfg sq w task s.scene }
      else sq_check_taskfail cfg task { s with scene := sq_task_fail cfg sq w task s.scene }
    { s with scene := { s.scene with sq_live := s.scene.sq_live.erase task } }
  else if success then task_complete cfg sq w task s
  else task_fail cfg task s

/-! ## Migrations -/

def pending_hash_index (unihash : Tid → Text) (tid : Tid) : Text :=
  cfg.pn tid ++ text ":taskname" ++ unihash tid

/-- The loop over the updated hashes: the unihashes with those changes, the queue that is left,
and the tasks that changed. -/
def take_updates (s : Exec Tid Stamp) : (Tid → Text) × List (Tid × Text) × Finset Tid :=
  s.updated_taskhash_queue.foldl (fun (unihash, queue, toprocess) (tid, new) =>
    if tid ∈ s.tasks.runq_running ∧ tid ∉ s.tasks.runq_complete then (unihash, queue, toprocess)
    else
      let queue := queue.erase (tid, new)
      if new ≠ unihash tid then
        let torehash := tid :: (s.scene.sq_deferred.filter (·.2 = tid)).map Prod.fst
        (fun t => if t ∈ torehash then new else unihash t, queue, toprocess ∪ torehash.toFinset)
      else (unihash, queue, toprocess))
    (s.unihash, s.updated_taskhash_queue, ∅)

def allRevdeps (tids : Finset Tid) : Finset Tid := tids.biUnion fun t => (cfg.revdeps t).toFinset

/-- The `while next` loop that collects the tasks that depend on the changed ones. -/
def collect_total : Nat → Finset Tid → Finset Tid → Finset Tid
  | 0, _, total => total
  | rounds + 1, next, total =>
    if next = ∅ then total
    else
      let total := total ∪ next
      collect_total rounds (allRevdeps cfg next \ total) total

/-- The loop that computes the hashes anew: hashes, unihashes, and the tasks that changed. -/
def rehash (s : Exec Tid Stamp) (p : Option Tid) : Nat → Finset Tid → Finset Tid →
    (Tid → Text) × (Tid → Text) × Finset Tid → (Tid → Text) × (Tid → Text) × Finset Tid
  | 0, _, _, acc => acc
  | rounds + 1, current, total, acc =>
    if current = ∅ then acc
    else
      let ready := cfg.runtaskentries.filter fun tid => tid ∈ current ∧
        ¬ ((∃ q ∈ p, cfg.depends q ≠ []) ∧ ∃ d ∈ cfg.depends tid, d ∈ total)
      let (next, total, acc) := ready.foldl (fun (next, total, hash, unihash, changed) tid =>
        let total' := total.erase tid
        let next' := (next ∪ (cfg.revdeps tid).toFinset) ∩ total'
        if w.unihash tid = unihash tid ∨ tid ∈ s.scene.scenequeue_covered ∨ tid ∈ s.scene.sq_live then
          (next', total', hash, unihash, changed)
        else
          (next', total', Function.update hash tid (w.taskhash tid),
            Function.update unihash tid (w.unihash tid), insert tid changed)) (∅, total, acc)
      rehash s p rounds next total acc

/-- The part of `process_possible_migrations` up to the pending migrations. True says that a
hash changed. -/
def rehash_tasks (s : Exec Tid Stamp) : Exec Tid Stamp × Bool :=
  let (unihash, queue, toprocess) := take_updates s
  let rounds := cfg.runtaskentries.length + 1
  let total := collect_total cfg rounds (allRevdeps cfg toprocess) ∅
  let next := total.filter fun p => ∀ d ∈ cfg.depends p, d ∉ total
  let p := (cfg.runtaskentries.filter (· ∈ total)).getLast?
  let (hash, unihash, changed) := rehash cfg w s p rounds next total (s.hash, unihash, ∅)
  ({ s with
    hash, unihash
    updated_taskhash_queue := queue
    pending_migrations := s.pending_migrations ∪ changed.filter (· ∈ cfg.runq_setscene_tids) },
    decide (changed ≠ ∅))

def set_back (tid : Tid) (s : Exec Tid Stamp) (done : Finset Tid) : Exec Tid Stamp :=
  { s with
    build_stamps := s.build_stamps.del tid
    scene := { s.scene with
      tasks_scenequeue_done := done
      sq_buildable := s.scene.sq_buildable.erase tid
      sq_running := s.scene.sq_running.erase tid
      outrightfail := s.scene.outrightfail.erase tid
      scenequeue_notcovered := s.scene.scenequeue_notcovered.erase tid
      scenequeue_covered := s.scene.scenequeue_covered.erase tid
      scenequeue_notneeded := s.scene.scenequeue_notneeded.erase tid
      stamps := Function.update s.scene.stamps tid (w.stampfile tid)
      entered := Function.update s.scene.entered tid 0 } }

/-- The loop over the pending migrations, with the tasks that migrate. -/
def migrate_loop : List Tid → Exec Tid Stamp → List Tid → Exec Tid Stamp × List Tid × Bool
  | [], s, update_tasks => (s, update_tasks, true)
  | tid :: later, s, update_tasks =>
    if tid ∈ s.tasks.runq_running ∨ tid ∈ s.scene.sq_live then
      migrate_loop later { s with pending_migrations := s.pending_migrations.erase tid } update_tasks
    else if ∃ dep ∈ sq.sq_covered_tasks tid, dep ∈ s.tasks.runq_running ∧ dep ∉ s.tasks.runq_complete then
      migrate_loop later s update_tasks
    else
      let s := { s with pending_migrations := s.pending_migrations.erase tid }
      let deps := cfg.runtaskentries.filter (· ∈ sq.sq_covered_tasks tid)
      let seen := deps.takeWhile fun dep =>
        ¬ (dep ∈ s.tasks.runq_complete ∧ dep ∉ s.tasks.runq_tasksrun)
      let done := (s.scene.tasks_scenequeue_done.erase tid).filter fun dep =>
        ¬ (dep ∈ seen ∧ dep ∉ s.tasks.runq_complete ∧ dep ∉ sq.unskippable)
      if seen ≠ deps then
        ({ s with
          scene := { s.scene with tasks_scenequeue_done := done }
          tasks := { s.tasks with failed_tids := s.tasks.failed_tids ++ [tid] }
          state := .runQueueCleanUp }, update_tasks, false)
      else migrate_loop later (set_back w tid s done) (update_tasks ++ [tid])

/-- The loop over the tasks that migrate which makes them buildable, and finds those with a
hard dependency that is not covered. -/
def migrate_buildable (update_tasks : List Tid) (s : SceneState Tid Stamp) : SceneState Tid Stamp :=
  update_tasks.foldl (fun s tid =>
    if (¬ (∃ t ∈ sq.sq_harddeps_rev tid, t ∈ s.scenequeue_notcovered) ∧
        sq.sq_revdeps tid ⊆ s.decided) ∨ sq.sq_revdeps tid = ∅ then
      { s with sq_buildable := insert tid s.sq_buildable }
    else s) s

def migrate_defer (unihash : Tid → Text) (update_tasks : List Tid) (s : SceneState Tid Stamp) :
    SceneState Tid Stamp :=
  (cfg.mc_sorted_tids.filter (· ∈ update_tasks)).foldl (fun s tid =>
    match s.hashes (pending_hash_index cfg unihash tid) with
    | some other => if tid ≠ other then { s with sq_deferred := s.sq_deferred.set tid other } else s
    | none => s) s

/-- The end of `process_possible_migrations`, for the tasks that migrate. -/
def migrate_tasks (unihash : Tid → Text) (update_tasks : List Tid) (s : SceneState Tid Stamp) :
    SceneState Tid Stamp :=
  let harddepfail := update_tasks.filter fun tid =>
    ∃ t ∈ sq.sq_harddeps_rev tid, t ∈ s.scenequeue_notcovered
  let s := migrate_buildable sq update_tasks s
  let s := if update_tasks = [] then s
    else update_scenequeue_data cfg sq w update_tasks.toFinset
      (migrate_defer cfg unihash update_tasks { s with sqdone := false })
  harddepfail.foldl (fun s tid => sq_task_failoutright cfg sq w tid s) s

def process_possible_migrations (s : Exec Tid Stamp) : Exec Tid Stamp :=
  let (s, changed) := rehash_tasks cfg w s
  match migrate_loop cfg sq w (cfg.runtaskentries.filter (· ∈ s.pending_migrations)) s [] with
  | (s, _, false) => s
  | (s, update_tasks, true) =>
    let scene := migrate_tasks cfg sq w s.unihash update_tasks s.scene
    if changed ∨ update_tasks ≠ [] then
      { s with scene := { scene with
          sq_needed_harddeps := ∅, sq_harddep_deferred := ∅, holdoff_need_update := true } }
    else { s with scene }

/-! ## The hold-off -/

def update_holdofftasks (s : Exec Tid Stamp) : Exec Tid Stamp :=
  if s.scene.holdoff_need_update = false then s
  else
    let c := s.scene
    let notcovered := (c.scenequeue_notcovered ∪ sq.cantskip ∪
      c.scenequeue_notcovered.biUnion sq.sq_covered_tasks ∪
      sq.unskippable.filter (· ∉ cfg.runq_setscene_tids)) ∩ c.tasks_scenequeue_done
    let covered := ((c.scenequeue_covered ∪ c.scenequeue_covered.biUnion sq.sq_covered_tasks) \
      notcovered) ∩ c.tasks_scenequeue_done
    let ready := (notcovered ∪ covered).filter fun tid =>
      ∀ dep ∈ cfg.depends tid, dep ∈ s.tasks.runq_complete
    let undecided := cfg.runq_setscene_tids.toFinset.filter (· ∉ c.decided)
    { s with
      tasks := { s.tasks with
        runq_buildable := s.tasks.runq_buildable ∪ ready
        sched_buildable := s.tasks.sched_buildable ∪ ready }
      scene := { c with
        tasks_covered := covered
        tasks_notcovered := notcovered
        holdoff_tasks := undecided ∪
          (undecided.biUnion sq.sq_covered_tasks).filter (· ∉ s.tasks.runq_complete)
        holdoff_need_update := false } }

/-- `summarise_scenequeue_errors`, which only reports. -/
def summarise_scenequeue_errors (s : Exec Tid Stamp) : Bool :=
  s.scene.sq_deferred ≠ [] || s.updated_taskhash_queue ≠ [] || s.scene.holdoff_tasks ≠ ∅ ||
  (cfg.runq_setscene_tids.any fun tid =>
    tid ∉ s.scene.decided || tid ∉ s.scene.sq_buildable || tid ∉ s.scene.sq_running) ||
  cfg.runtaskentries.any fun x =>
    (x ∉ s.scene.tasks_covered && x ∉ s.scene.tasks_notcovered) ||
    x ∉ s.scene.tasks_scenequeue_done || (cfg.depends x = [] && x ∉ s.tasks.runq_buildable)

/-! ## The scheduler -/

def can_start_task (s : Exec Tid Stamp) : Prop :=
  s.tasks.stats.active + s.scene.sq_live.card < cfg.number_tasks

instance (s : Exec Tid Stamp) : Decidable (can_start_task cfg s) := inferInstanceAs (Decidable (_ < _))

/-- The tasks that `next_buildable_task` chooses from. -/
def candidates (s : Exec Tid Stamp) : Finset Tid :=
  ((s.tasks.sched_buildable \ s.tasks.runq_running) \ s.scene.holdoff_tasks) ∩
    (s.scene.tasks_covered ∪ s.scene.tasks_notcovered)

/-- Too many tasks of the name of the task run. -/
def too_many_threads (s : Exec Tid Stamp) (tid : Tid) : Prop :=
  ∃ limit ∈ cfg.number_threads (cfg.taskname tid),
    0 < ((s.tasks.runq_running \ s.tasks.runq_complete).filter
      (cfg.taskname · = cfg.taskname tid)).card ∧
    limit ≤ ((s.tasks.runq_running \ s.tasks.runq_complete).filter
      (cfg.taskname · = cfg.taskname tid)).card

instance (s : Exec Tid Stamp) (tid : Tid) : Decidable (too_many_threads cfg s tid) :=
  inferInstanceAs (Decidable (∃ limit ∈ cfg.number_threads (cfg.taskname tid), _))

def stamp_in_use (s : Exec Tid Stamp) (tid : Tid) : Prop :=
  s.sched_stamps tid ∈ s.build_stamps.map Prod.snd

instance (s : Exec Tid Stamp) (tid : Tid) : Decidable (stamp_in_use s tid) :=
  inferInstanceAs (Decidable (_ ∈ _))

/-- `next_buildable_task`: the candidate that comes first in the priority map. A candidate that
is not in the map raises a `ValueError`, which is the outer none. -/
def next_buildable_task (s : Exec Tid Stamp) : Option (Option Tid) :=
  if candidates s = ∅ then some none
  else if s.tasks.stats.active ≠ 0 ∧ w.exceeds_max_pressure then some none
  else
    let startable := (candidates s).filter fun tid =>
      ¬ too_many_threads cfg s tid ∧ ¬ stamp_in_use s tid
    if (candidates s).card = 1 ∧ ∀ tid ∈ candidates s, too_many_threads cfg s tid then some none
    else if (candidates s).card = 1 ∧ startable ≠ ∅ then
      some (cfg.runtaskentries.find? (· ∈ startable))
    else if ∀ tid ∈ cfg.runtaskentries, tid ∈ cfg.prio_map then
      some (cfg.prio_map.find? (· ∈ startable))
    else none

def sched_next (s : Exec Tid Stamp) : Option (Option Tid) :=
  if can_start_task cfg s then next_buildable_task cfg w s else some none

/-! ## `execute` -/

def check_setscene_ignore_tasks (s : Exec Tid Stamp) (tid : Tid) : Prop :=
  ∃ ignored ∈ cfg.setscene_ignore_tasks, tid ∉ s.scene.tasks_covered ∧ ¬ w.stamp_current tid ∧
    ¬ cfg.noexec tid ∧ ¬ ignored tid

instance (s : Exec Tid Stamp) (tid : Tid) : Decidable (check_setscene_ignore_tasks cfg w s tid) :=
  inferInstanceAs (Decidable (∃ ignored ∈ cfg.setscene_ignore_tasks, _))

/-- The setscene variant of a task goes to a worker. -/
def start_setscene (task : Tid) (s : Exec Tid Stamp) : Exec Tid Stamp :=
  { s with
    build_stamps := s.build_stamps.set task (w.setscene_stampfile task)
    scene := { s.scene with
      sq_running := insert task s.scene.sq_running
      sq_live := insert task s.scene.sq_live } }

def start_task (task : Tid) (s : Exec Tid Stamp) : Exec Tid Stamp :=
  let tasks := put_running task s.tasks
  { s with
    build_stamps := s.build_stamps.set task (w.stampfile task)
    tasks := { tasks with stats := tasks.stats.taskActive, live := insert task tasks.live }
    run_stamp := Function.update s.run_stamp task (w.stampfile task) }

def run_noexec (task : Tid) (s : Exec Tid Stamp) : Exec Tid Stamp :=
  let tasks := put_running task s.tasks
  task_complete cfg sq w task { s with tasks := { tasks with stats := tasks.stats.taskActive } }

/-- A fakeroot task whose worker cannot be started. -/
def spawn_fails (task : Tid) : Prop :=
  cfg.fakeroot task ∧ ¬ (cfg.dry_run ∨ cfg.setscene_enforce) ∧ w.fakeworker_fails task

instance (task : Tid) : Decidable (spawn_fails cfg w task) := instDecidableAnd

/-- What `execute` does with the task of the scheduler. True says that it returns then. -/
def run_task (task : Tid) (s : Exec Tid Stamp) : Exec Tid Stamp × Bool :=
  if check_setscene_ignore_tasks cfg w s task then (task_fail cfg task s, true)
  else if task ∈ s.scene.tasks_covered then (task_skip cfg sq w task s, true)
  else if w.stamp_current task then
    let s := task_skip cfg sq w task s
    ({ s with tasks := { s.tasks with runq_tasksrun := insert task s.tasks.runq_tasksrun } }, true)
  else if cfg.noexec task then (run_noexec cfg sq w task s, true)
  else if spawn_fails cfg w task then
    ({ s with state := .runQueueFailed
              tasks := { s.tasks with stats := s.tasks.stats.taskFailed } }, true)
  else
    let s := start_task w task s
    (s, decide (can_start_task cfg s))

/-- The end of `execute`, when it starts nothing more. -/
def wind_up (s : Exec Tid Stamp) : Exec Tid Stamp :=
  if s.tasks.stats.active > 0 ∨ s.scene.sq_live ≠ ∅ then s
  else if s.scene.sq_deferred ≠ [] then
    { s with scene := { s.scene with sq_deferred := s.scene.sq_deferred.tail } }
  else if s.tasks.failed_tids ≠ [] then { s with state := .runQueueFailed }
  else if summarise_scenequeue_errors cfg s ∨ ∃ task ∈ cfg.runtaskentries,
      task ∉ s.tasks.runq_buildable ∨ task ∉ s.tasks.runq_running ∨ task ∉ s.tasks.runq_complete then
    { s with state := .runQueueFailed }
  else { s with state := .runQueueComplete }

/-- The check whether the setscene tasks are through. True says that `execute` returns. -/
def scene_done (s : Exec Tid Stamp) : Exec Tid Stamp × Bool :=
  if s.scene.sq_live = ∅ ∧ ¬ s.scene.sqdone ∧ s.scene.sq_deferred = [] ∧
      s.updated_taskhash_queue = [] ∧ s.scene.holdoff_tasks = ∅ then
    if summarise_scenequeue_errors cfg s then ({ s with state := .runQueueFailed }, true)
    else if cfg.setsceneonly then ({ s with state := .runQueueComplete }, true)
    else
      let s := { s with scene := { s.scene with sqdone := true } }
      if cfg.runtaskentries = [] then ({ s with state := .runQueueComplete }, true)
      else (s, false)
  else (s, false)

/-- What `execute` does with the setscene tasks in this state. -/
def find_setscene (s : Exec Tid Stamp) : SceneState Tid Stamp × Choice Tid :=
  if ¬ s.scene.sqdone ∧ can_start_task cfg s then
    let (scene, choice) := search_setscene cfg sq w s.tasks.runq_complete
      (s.build_stamps.map Prod.snd) cfg.runq_setscene_tids.length s.scene
    (scene, check_setscene cfg w choice)
  else (s.scene, .nothing)

/-- The setscene part of `execute`. True says that it returns then. -/
def setscene_part (s : Exec Tid Stamp) : Exec Tid Stamp × Bool :=
  match find_setscene cfg sq w s with
  | (scene, .nothing) => ({ s with scene }, false)
  | (scene, .start task) =>
    let s := start_setscene w task { s with scene }
    (s, decide (can_start_task cfg s))
  | (scene, choice) => ({ s with scene := settle cfg sq w scene choice }, true)

def normal_part (s : Exec Tid Stamp) : Option (Exec Tid Stamp) :=
  match (if cfg.setsceneonly then some none else sched_next cfg w s) with
  | none => none
  | some none => some (wind_up cfg s)
  | some (some task) =>
    match run_task cfg sq w task s with
    | (s, true) => some s
    | (s, false) => some (wind_up cfg s)

def migrated (s : Exec Tid Stamp) : Exec Tid Stamp :=
  if s.updated_taskhash_queue ≠ [] ∨ s.pending_migrations ≠ ∅ then
    process_possible_migrations cfg sq w s
  else s

/-- The parts of `execute` before the one with the normal tasks. True says that it returns. -/
def first_parts (s : Exec Tid Stamp) : Exec Tid Stamp × Bool :=
  match setscene_part cfg sq w (migrated cfg sq w s) with
  | (s, true) => (s, true)
  | (s, false) => scene_done cfg (update_holdofftasks cfg sq s)

def execute (s : Exec Tid Stamp) : Option (Exec Tid Stamp) :=
  match first_parts cfg sq w s with
  | (s, true) => some s
  | (s, false) => normal_part cfg sq w s

def finish (s : Exec Tid Stamp) : Exec Tid Stamp :=
  if s.tasks.stats.active + s.scene.sq_live.card > 0 then { s with state := .runQueueCleanUp }
  else if s.tasks.failed_tids ≠ [] then { s with state := .runQueueFailed }
  else { s with state := .runQueueComplete }

def finish_now (s : Exec Tid Stamp) : Exec Tid Stamp :=
  if s.tasks.failed_tids ≠ [] then { s with state := .runQueueFailed }
  else { s with state := .runQueueComplete }

/-! ## The machine -/

/-- The deferral at the end of `build_scenequeue_data`: the first task of each hash, and the
others deferred after it. -/
def first_deferral (unihash : Tid → Text) : (Text → Option Tid) × OrderedDict Tid Tid :=
  (cfg.mc_sorted_tids.filter (· ∈ cfg.runq_setscene_tids)).foldl (fun (hashes, deferred) tid =>
    let h := pending_hash_index cfg unihash tid
    match hashes h with
    | none => (Function.update hashes h (some tid), deferred)
    | some other => (hashes, deferred.set tid other)) (fun _ => none, [])

/-- `RunQueueExecute.__init__`, and the way to its first `execute`. -/
def start (q : SQRunQueue Tid) : Exec Tid Stamp :=
  let (hashes, sq_deferred) := first_deferral cfg w.unihash
  let scene : SceneState Tid Stamp := update_scenequeue_data cfg sq w cfg.runq_setscene_tids.toFinset
    { sq_buildable := q.sq_buildable, sq_running := ∅, sq_live := ∅, sq_deferred
      sq_needed_harddeps := ∅, sq_harddep_deferred := ∅, scenequeue_covered := ∅
      scenequeue_notcovered := ∅, scenequeue_notneeded := ∅
      tasks_scenequeue_done := q.tasks_scenequeue_done, tasks_covered := ∅, tasks_notcovered := ∅
      holdoff_tasks := ∅, holdoff_need_update := true, sqdone := false, stamps := w.stampfile
      stamppresent := ∅, valid := ∅, outrightfail := ∅, noexec := ∅, hashes
      setscene_tids_generator := cfg.runq_setscene_tids, entered := fun _ => 0 }
  let free := cfg.runtaskentries.toFinset.filter (cfg.depends · = [])
  let buildable := if cfg.runq_setscene_tids = [] then q.buildable ∪ free else q.buildable
  { scene := if cfg.runq_setscene_tids = [] then
      { scene with tasks_notcovered := cfg.runtaskentries.toFinset, sqdone := true } else scene
    tasks := { runq_buildable := buildable, sched_buildable := buildable, runq_running := ∅
               runq_complete := ∅, runq_tasksrun := ∅, failed_tids := [], stats := ⟨0, 0, 0, 0⟩
               puts := [], live := ∅ }
    build_stamps := [], sched_stamps := w.stampfile, hash := w.taskhash, unihash := w.unihash
    updated_taskhash_queue := [], pending_migrations := ∅, state := .runQueueRunning
    run_stamp := w.stampfile }

/-- What happens in the main loop. Each call comes with the world as it is then. -/
inductive Action (Tid Stamp : Type)
  | execute (w : World Tid Stamp)
  | finish
  | finish_now
  /-- A worker says that a task ended. -/
  | reply (w : World Tid Stamp) (task : Tid) (success : Bool)
  /-- The event `taskUniHashUpdate` arrives. -/
  | unihash_update (task : Tid) (unihash : Text)

/-- One step. An exception that nothing catches ends the build: no step. -/
def step (s : Exec Tid Stamp) : Action Tid Stamp → Option (Exec Tid Stamp)
  | .execute w =>
    if s.state = .runQueueRunning ∨ s.state = .runQueueCleanUp then execute cfg sq w s else none
  | .finish => some (finish s)
  | .finish_now => some (finish_now s)
  | .reply w task success =>
    if task ∈ s.scene.sq_live ∨ task ∈ s.tasks.live then
      some (runqueue_process_waitpid cfg sq w task success s)
    else none
  | .unihash_update task unihash =>
    some { s with updated_taskhash_queue := s.updated_taskhash_queue ++ [(task, unihash)] }

end yocto.runqueue
