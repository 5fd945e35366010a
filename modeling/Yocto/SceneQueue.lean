-- `build_scenequeue_data` of runqueue.py.
import Yocto.TaskGraph
import Yocto.OrderedDict
import Mathlib.Data.Finset.Basic
import Mathlib.Data.Finset.Union

open yocto.task_graph yocto.ordered_dict

namespace yocto.scenequeue

variable {Tid : Type} [DecidableEq Tid]

/-! ## The function -/

/-- What `build_scenequeue_data` reads of the run queue data. -/
structure RunQueueData (Tid : Type) extends TaskGraph Tid where
  runq_setscene_tids : List Tid
  target_tids : List Tid
  hard_deptids : Tid → List Tid
  setscene_mem : ∀ t ∈ runq_setscene_tids, t ∈ runtaskentries

/-- The part of `SQData` that the construction fills. -/
structure SQData (Tid : Type) where
  sq_deps : Tid → Finset Tid
  sq_revdeps : Tid → Finset Tid
  sq_harddeps : Tid → Finset Tid
  sq_harddeps_rev : Tid → Finset Tid
  unskippable : Finset Tid
  cantskip : Finset Tid
  sq_covered_tasks : Tid → Finset Tid

/-- The sets of the executor that the construction adds to. -/
structure SQRunQueue (Tid : Type) where
  buildable : Finset Tid
  tasks_scenequeue_done : Finset Tid
  sq_buildable : Finset Tid

/-- The two fatal errors, and a loop that does not end. -/
inductive BuildError
  | badlyWrong
  | nonExistent
  | endless
  deriving DecidableEq, Repr

structure Collapse (Tid : Type) where
  sq_revdeps : Tid → Finset Tid
  sq_revdeps_squash : Tid → Finset Tid
  sq_collated_deps : Tid → Finset Tid

/-- Endpoints with the setscene tasks that reached them. -/
abbrev Endpoints (Tid : Type) := OrderedDict Tid (Finset Tid)

variable (rq : RunQueueData Tid)

/-- The first endpoints: the tasks that nothing depends on. -/
def first_endpoints : Endpoints Tid :=
  (rq.runtaskentries.filter fun tid => rq.revdeps tid = [] ∧ tid ∉ rq.runq_setscene_tids).map
    fun tid => (tid, ∅)

/-- One turn of the loop over the dependencies of a setscene task. -/
def setscene_dep_step (tid : Tid) (acc : (Tid → Finset Tid) × Endpoints Tid) (dep : Tid) :
    (Tid → Finset Tid) × Endpoints Tid :=
  (Function.update acc.1 dep ((acc.1 dep).erase tid),
    acc.2.set dep (insert tid ((acc.2.get? dep).getD ∅)))

/-- The loops up to the first call of `process_endpoints`. -/
def start_collapse : Collapse Tid × Endpoints Tid :=
  let (sq_revdeps, endpoints) := rq.runq_setscene_tids.foldl
    (fun acc tid => (rq.depends tid).foldl (setscene_dep_step tid) acc)
    (fun tid => (rq.revdeps tid).toFinset, first_endpoints rq)
  ({ sq_revdeps, sq_revdeps_squash := fun _ => ∅, sq_collated_deps := fun _ => ∅ }, endpoints)

/-- One turn of the loop over the dependencies of an endpoint. -/
def dep_step (point : Tid) (task tasks : Finset Tid) (acc : Collapse Tid × Endpoints Tid)
    (dep : Tid) : Collapse Tid × Endpoints Tid :=
  let s := { acc.1 with
    sq_revdeps := Function.update acc.1.sq_revdeps dep ((acc.1.sq_revdeps dep).erase point)
    sq_revdeps_squash :=
      Function.update acc.1.sq_revdeps_squash dep (acc.1.sq_revdeps_squash dep ∪ tasks) }
  if s.sq_revdeps dep = ∅ ∧ dep ∉ rq.runq_setscene_tids then (s, acc.2.set dep task) else (s, acc.2)

def point_step (acc : Collapse Tid × Endpoints Tid) (endpoint : Tid × Finset Tid) :
    Collapse Tid × Endpoints Tid :=
  let (point, task) := endpoint
  let (s, newendpoints) := acc
  let tasks := task ∪ s.sq_revdeps_squash point
  if point ∈ rq.runq_setscene_tids then
    ({ s with sq_revdeps_squash := Function.update s.sq_revdeps_squash point tasks }, newendpoints)
  else
    let s := { s with
      sq_collated_deps := fun t =>
        if t ∈ tasks then insert point (s.sq_collated_deps t) else s.sq_collated_deps t
      sq_revdeps_squash := Function.update s.sq_revdeps_squash point ∅ }
    (rq.depends point).foldl (dep_step rq point task tasks) (s, newendpoints)

/-- `process_endpoints`, with a bound on its calls. -/
def process_endpoints : Nat → Collapse Tid → Endpoints Tid → Option (Collapse Tid)
  | 0, _, _ => none
  | calls + 1, s, endpoints =>
    let (s', newendpoints) := endpoints.foldl (point_step rq) (s, [])
    if newendpoints = [] then some s' else process_endpoints calls s' newendpoints

/-- The `while new` loop: the tasks without setscene tasks before them, with a bound on its turns.
-/
def unskippable_loop : Nat → Finset Tid → Finset Tid → Option (Finset Tid × Finset Tid)
  | 0, _, _ => none
  | turns + 1, orig, buildable =>
    let passed := orig.filter (· ∉ rq.runq_setscene_tids)
    let buildable' := buildable ∪ passed.filter (rq.depends · = [])
    let unskippable := orig ∪ passed.biUnion fun tid => (rq.depends tid).toFinset
    if unskippable = orig then some (unskippable, buildable')
    else unskippable_loop turns unskippable buildable'

/-- The tasks that are in `l`, for a dict that is filled by going through `l`. -/
def those (l : List Tid) (p : Tid → Prop) [DecidablePred p] : Finset Tid := l.toFinset.filter p

def build_scenequeue_data : Except BuildError (SQData Tid × SQRunQueue Tid) :=
  let setscene := rq.runq_setscene_tids
  let cantskip := rq.target_tids.toFinset.filter
    fun tid => tid ∉ setscene ∧ tid ∈ rq.runtaskentries
  let (s0, endpoints) := start_collapse rq
  match process_endpoints rq (rq.runtaskentries.length + 1) s0 endpoints with
  | none => .error .endless
  | some s =>
    let roots := rq.runtaskentries.toFinset.filter fun tid => rq.revdeps tid = []
    match unskippable_loop rq (rq.runtaskentries.length + 1) (roots ∪ cantskip) ∅ with
    | none => .error .endless
    | some (unskippable, buildable) =>
      if ∃ tid ∈ rq.runtaskentries, tid ∉ setscene ∧ s.sq_revdeps_squash tid ≠ ∅ then
        .error .badlyWrong
      else if ∃ tid ∈ setscene, ∃ dep ∈ rq.hard_deptids tid, dep ∉ rq.runtaskentries then
        .error .nonExistent
      else
        .ok ({ sq_deps := fun dep => those setscene fun tid => dep ∈ s.sq_revdeps_squash tid
               sq_revdeps := fun tid => if tid ∈ setscene then s.sq_revdeps_squash tid else ∅
               sq_harddeps := fun dep => those setscene fun tid => dep ∈ rq.hard_deptids tid
               sq_harddeps_rev := fun tid =>
                 if tid ∈ setscene then (rq.hard_deptids tid).toFinset else ∅
               unskippable, cantskip, sq_covered_tasks := s.sq_collated_deps },
             { buildable
               tasks_scenequeue_done := unskippable.filter (· ∉ setscene)
               sq_buildable := those setscene fun tid => s.sq_revdeps_squash tid = ∅ })

variable {rq} in
theorem build_of_isSome (h : (build_scenequeue_data rq).toOption.isSome) :
    build_scenequeue_data rq = .ok ((build_scenequeue_data rq).toOption.get h) := by
  generalize build_scenequeue_data rq = r at h ⊢
  cases r with
  | error => cases h
  | ok r => rfl

end yocto.scenequeue
