-- The setscene side of `RunQueueExecute`: which setscene tasks were covered and which not, how
-- that reaches the tasks they cover and the tasks that have a hard dependency on them, and
-- which setscene task is started next.
import Yocto.SceneQueue
import Yocto.TaskIds

open yocto.task_ids yocto.ordered_dict yocto.scenequeue

namespace yocto.runqueue

variable {Tid Stamp : Type} [DecidableEq Tid] [DecidableEq Stamp]

/-! ## What does not change -/

structure Config (Tid : Type) extends RunQueueData Tid where
  sorted_tids : List Tid
  mc_sorted_tids : List Tid
  taskname : Tid → Text
  pn : Tid → Text
  noexec : Tid → Bool
  fakeroot : Tid → Bool
  /-- The flag `number_threads` of a task name. -/
  number_threads : Text → Option Nat
  prio_map : List Tid
  number_tasks : Nat
  halt : Bool
  force : Bool
  skipsetscene : Bool
  setsceneonly : Bool
  dry_run : Bool
  setscene_enforce : Bool
  /-- None, or the tasks that `check_setscene_enforce_ignore_tasks` lets run. -/
  setscene_ignore_tasks : Option (Tid → Bool)

/-- A set of task ids as `sorted` gives it. -/
def Config.sorted (cfg : Config Tid) (tids : Finset Tid) : List Tid :=
  cfg.sorted_tids.filter (· ∈ tids)

/-- What the code asks of the outside: the stamp files, the setscene objects on the mirrors,
the hooks of the metadata, the signature generator. -/
structure World (Tid Stamp : Type) where
  stamp_current : Tid → Bool
  stamp_current_recurse : Tid → Bool
  setscene_stamp_current : Tid → Bool
  validate_hashes : Finset Tid → Finset Tid
  depvalidate : Tid → Bool
  fakeworker_fails : Tid → Bool
  exceeds_max_pressure : Bool
  stampfile : Tid → Stamp
  setscene_stampfile : Tid → Stamp
  taskhash : Tid → Text
  unihash : Tid → Text

/-! ## The state -/

structure SceneState (Tid Stamp : Type) where
  sq_buildable : Finset Tid
  sq_running : Finset Tid
  sq_live : Finset Tid
  sq_deferred : OrderedDict Tid Tid
  sq_needed_harddeps : Finset Tid
  sq_harddep_deferred : Finset Tid
  scenequeue_covered : Finset Tid
  scenequeue_notcovered : Finset Tid
  scenequeue_notneeded : Finset Tid
  tasks_scenequeue_done : Finset Tid
  tasks_covered : Finset Tid
  tasks_notcovered : Finset Tid
  holdoff_tasks : Finset Tid
  holdoff_need_update : Bool
  sqdone : Bool
  stamps : Tid → Stamp
  stamppresent : Finset Tid
  valid : Finset Tid
  outrightfail : Finset Tid
  noexec : Finset Tid
  hashes : Text → Option Tid
  setscene_tids_generator : List Tid
  entered : Tid → Nat

variable (cfg : Config Tid) (sq : SQData Tid) (w : World Tid Stamp)

/-- `scenequeue_covered | scenequeue_notcovered`. -/
def SceneState.decided (s : SceneState Tid Stamp) : Finset Tid :=
  s.scenequeue_covered ∪ s.scenequeue_notcovered

/-! ## The counters -/

/-- The `while next` loop of `scenequeue_updatecounters`: a task is done when all tasks that depend
on it are. -/
def done_walk : Nat → Finset Tid → Finset Tid → Finset Tid
  | 0, _, done => done
  | rounds + 1, next, done =>
    if next = ∅ then done
    else
      let (done', new) := (cfg.sorted next).foldl (fun (done, new) t =>
        let done := insert t done
        (done, new ∪ ((cfg.depends t).filter fun dep =>
          dep ∉ cfg.runq_setscene_tids ∧ dep ∉ done ∧ ∀ r ∈ cfg.revdeps dep, r ∈ done).toFinset))
        (done, ∅)
      done_walk rounds new done'

/-- The part of `scenequeue_updatecounters` after the hard dependencies. -/
def count_task (task : Tid) (s : SceneState Tid Stamp) : SceneState Tid Stamp :=
  { s with
    sq_buildable := s.sq_buildable ∪
      (sq.sq_deps task).filter fun dep => sq.sq_revdeps dep ⊆ s.decided
    tasks_scenequeue_done :=
      done_walk cfg (cfg.runtaskentries.length + 1) {task} s.tasks_scenequeue_done
    sq_harddep_deferred :=
      if sq.sq_harddeps task = ∅ then s.sq_harddep_deferred
      else s.sq_harddep_deferred.filter fun dep => ¬ sq.sq_harddeps_rev dep ⊆ s.decided
    holdoff_need_update := true }

def add_covered (task : Tid) (s : SceneState Tid Stamp) : SceneState Tid Stamp :=
  { s with
    scenequeue_covered := insert task s.scenequeue_covered
    entered := if task ∈ s.scenequeue_covered then s.entered
      else Function.update s.entered task (s.entered task + 1) }

def add_notcovered (task : Tid) (s : SceneState Tid Stamp) : SceneState Tid Stamp :=
  { s with
    scenequeue_notcovered := insert task s.scenequeue_notcovered
    entered := if task ∈ s.scenequeue_notcovered then s.entered
      else Function.update s.entered task (s.entered task + 1) }

/-- `check_setscene_stamps`: is the task noexec, and is a stamp of it present. -/
def check_setscene_stamps (tid : Tid) : Bool × Bool :=
  if cfg.noexec tid then (true, false)
  else (false, w.setscene_stamp_current tid || w.stamp_current_recurse tid)

def scenequeue_updatecounters : Nat → Tid → Bool → SceneState Tid Stamp → SceneState Tid Stamp
  | 0, task, _, s => count_task cfg sq task s
  | depth + 1, task, fail, s =>
    let s := if fail then
        (cfg.sorted (sq.sq_harddeps task)).foldl (fun s dep =>
          if dep ∈ s.scenequeue_covered ∨ dep ∈ s.scenequeue_notcovered then s
          else if (check_setscene_stamps cfg w dep).1 ∨ (check_setscene_stamps cfg w dep).2 then s
          else
            -- `sq_task_failoutright(dep)`
            scenequeue_updatecounters depth dep true (add_notcovered dep
              { s with sq_running := insert dep s.sq_running
                       sq_buildable := insert dep s.sq_buildable })) s
      else s
    count_task cfg sq task s

def updatecounters (task : Tid) (fail : Bool) (s : SceneState Tid Stamp) : SceneState Tid Stamp :=
  scenequeue_updatecounters cfg sq w (cfg.runtaskentries.length + 1) task fail s

def sq_task_completeoutright (task : Tid) (s : SceneState Tid Stamp) : SceneState Tid Stamp :=
  updatecounters cfg sq w task false (add_covered task s)

def sq_task_complete (task : Tid) (s : SceneState Tid Stamp) : SceneState Tid Stamp :=
  sq_task_completeoutright cfg sq w task s

/-- `sq_task_fail`, but for `sq_check_taskfail`. -/
def sq_task_fail (task : Tid) (s : SceneState Tid Stamp) : SceneState Tid Stamp :=
  updatecounters cfg sq w task true (add_notcovered task s)

def sq_task_failoutright (task : Tid) (s : SceneState Tid Stamp) : SceneState Tid Stamp :=
  updatecounters cfg sq w task true (add_notcovered task
    { s with sq_running := insert task s.sq_running, sq_buildable := insert task s.sq_buildable })

def sq_task_skip (task : Tid) (s : SceneState Tid Stamp) : SceneState Tid Stamp :=
  sq_task_completeoutright cfg sq w task
    { s with sq_running := insert task s.sq_running, sq_buildable := insert task s.sq_buildable }

/-! ## What is present -/

/-- One turn of the first loop of `update_scenequeue_data`. -/
def update_step (acc : SceneState Tid Stamp × Finset Tid) (tid : Tid) :
    SceneState Tid Stamp × Finset Tid :=
  let (s, tocheck) := acc
  let s := { s with
    stamppresent := s.stamppresent.erase tid
    valid := s.valid.erase tid
    outrightfail := s.outrightfail.erase tid }
  let (noexec, stamppresent) := check_setscene_stamps cfg w tid
  if noexec then
    (sq_task_skip cfg sq w tid { s with noexec := insert tid s.noexec }, tocheck)
  else if stamppresent then
    (sq_task_skip cfg sq w tid { s with stamppresent := insert tid s.stamppresent }, tocheck)
  else (s, insert tid tocheck)

def update_scenequeue_data (tids : Finset Tid) (s : SceneState Tid Stamp) : SceneState Tid Stamp :=
  let (s, tocheck) := (cfg.sorted tids).foldl (update_step cfg sq w) (s, ∅)
  let s := { s with valid := s.valid ∪ w.validate_hashes tocheck }
  { s with outrightfail := s.outrightfail ∪ tids.filter fun tid =>
      tid ∉ s.stamppresent ∧ tid ∉ s.valid ∧ tid ∉ s.noexec ∧ tid ∉ s.scenequeue_covered ∧
        tid ∉ s.scenequeue_notcovered ∧ tid ∉ s.sq_deferred.map Prod.fst }

/-! ## The next setscene task -/

inductive Choice (Tid : Type)
  | nothing
  | woken
  | notneeded (task : Tid)
  | skip (task : Tid)
  | failoutright (task : Tid)
  | start (task : Tid)
  deriving DecidableEq, Repr

/-- One turn of the search for a setscene task, with none for `continue`. -/
def consider (complete : Finset Tid) (in_use : List Stamp) (nexttask : Tid)
    (s : SceneState Tid Stamp) : SceneState Tid Stamp × Option (Choice Tid) :=
  if nexttask ∈ s.sq_buildable ∧ nexttask ∉ s.sq_running ∧ s.stamps nexttask ∉ in_use ∧
      nexttask ∉ s.sq_harddep_deferred then
    if ∃ blocking ∈ s.sq_deferred.get? nexttask, blocking ∉ complete then (s, none)
    else if nexttask ∉ sq.unskippable ∧ sq.sq_revdeps nexttask ≠ ∅ ∧
        nexttask ∉ s.sq_needed_harddeps ∧ sq.sq_revdeps nexttask ⊆ s.scenequeue_covered ∧
        w.depvalidate nexttask ∧ nexttask ∉ cfg.target_tids then
      (s, some (.notneeded nexttask))
    else if ¬ sq.sq_harddeps_rev nexttask ⊆ s.decided then
      let needed := (sq.sq_harddeps_rev nexttask).filter (· ∉ s.sq_needed_harddeps)
      ({ s with
        sq_buildable := s.sq_buildable ∪ needed
        sq_needed_harddeps := s.sq_needed_harddeps ∪ needed
        sq_harddep_deferred := insert nexttask s.sq_harddep_deferred },
        if needed = ∅ then none else some .woken)
    -- the loop over the covered tasks that run only continues itself, so it has no effect
    else
      let deferred := nexttask ∈ s.sq_deferred.map Prod.fst
      let s := { s with sq_deferred := s.sq_deferred.del nexttask }
      if (deferred ∧ w.validate_hashes {nexttask} = ∅) ∨ nexttask ∈ s.outrightfail then
        (s, some (.failoutright nexttask))
      else (s, some (.start nexttask))
  else (s, none)

/-- The `while loopcount` loop. The generator goes round and round over the setscene tasks. -/
def search_setscene (complete : Finset Tid) (in_use : List Stamp) :
    Nat → SceneState Tid Stamp → SceneState Tid Stamp × Choice Tid
  | 0, s => (s, .nothing)
  | loops + 1, s =>
    match s.setscene_tids_generator with
    | [] => (s, .nothing)
    | nexttask :: later =>
      let s := { s with setscene_tids_generator := later ++ [nexttask] }
      match consider cfg sq w complete in_use nexttask s with
      | (s, some choice) => (s, choice)
      | (s, none) => search_setscene complete in_use loops s

/-- The checks of the setscene task that was found. -/
def check_setscene : Choice Tid → Choice Tid
  | .start task =>
    if w.stamp_current_recurse task then .failoutright task
    else if cfg.force ∧ task ∈ cfg.target_tids then .failoutright task
    else if w.setscene_stamp_current task then .skip task
    else if cfg.skipsetscene then .failoutright task
    else .start task
  | choice => choice

/-- A setscene task that is decided without a run. -/
def settle (s : SceneState Tid Stamp) : Choice Tid → SceneState Tid Stamp
  | .notneeded task =>
    let s := sq_task_skip cfg sq w task s
    { s with
      scenequeue_notneeded := insert task s.scenequeue_notneeded
      sq_deferred := s.sq_deferred.del task }
  | .skip task => sq_task_skip cfg sq w task s
  | .failoutright task => sq_task_failoutright cfg sq w task s
  | .nothing | .woken | .start _ => s

end yocto.runqueue
