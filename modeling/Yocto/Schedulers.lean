-- The schedulers of the run queue (runqueue.py). Each has its map of priorities, and
-- `next_buildable_task` picks the first task of it that may start.
import Yocto.CompletionOrder
import Yocto.PythonInt
import Mathlib.Data.Finset.Basic

open yocto.task_ids yocto.ordered_dict yocto.completion_order yocto.python_int

namespace yocto.schedulers

/-! ## The map of priorities -/

/-- `RunQueueSchedulerSpeed`: the tasks by weight, the heaviest first. -/
def speed {Tid : Type} (weight : Tid → Nat) (runtaskentries : List Tid) : List Tid :=
  let weights : OrderedDict Nat (List Tid) := OrderedDict.group weight id runtaskentries
  (((weights.map Prod.fst).mergeSort fun a b => decide (a ≤ b)).flatMap fun w => (weights.get? w).getD []).reverse

/-- An item of the map of priorities: a task id, or the keys of all tasks. -/
inductive Entry where
  | task (tid : TaskId)
  | keys (tids : List TaskId)
  deriving DecidableEq

/-- The tasks of an item, in order. -/
def Entry.tasks : Entry → List TaskId
  | task tid => [tid]
  | keys tids => tids

inductive Kind where
  | basic
  | speed
  | completion
  deriving DecidableEq

/-- The data of the run queue that stay as they are while the tasks run. -/
structure RunQueueData where
  runtaskentries : List TaskId
  nodup : runtaskentries.Nodup
  weight : TaskId → Nat
  /-- `stampfile_mcfn`. -/
  stampfile : TaskId → Text
  /-- The flag `number_threads` of a task name in the configuration. -/
  number_threads : Text → Option Text

/-- `self.prio_map` of a scheduler. -/
def Kind.prio_map (rqdata : RunQueueData) : Kind → List Entry
  | basic => [Entry.keys rqdata.runtaskentries]
  | speed => (schedulers.speed rqdata.weight rqdata.runtaskentries).map Entry.task
  | completion =>
    (completion_order.completion (schedulers.speed rqdata.weight rqdata.runtaskentries)).2.map Entry.task

def priority (prio_map : List Entry) : List TaskId := prio_map.flatMap Entry.tasks

/-! ## The scheduler -/

structure RunQueueScheduler where
  prio_map : List Entry
  buildable : Finset TaskId
  skip_maxthread : OrderedDict Text (Option Text)
  stamps : OrderedDict TaskId Text
  /-- No map at all and an empty one are the same to the code. -/
  rev_prio_map : OrderedDict TaskId Nat

def init (rqdata : RunQueueData) (kind : Kind) (runq_buildable : Finset TaskId) : RunQueueScheduler where
  prio_map := kind.prio_map rqdata
  buildable := rqdata.runtaskentries.toFinset ∩ runq_buildable
  skip_maxthread := []
  stamps := rqdata.runtaskentries.map fun tid => (tid, rqdata.stampfile tid)
  rev_prio_map := []

structure RunQueue where
  runq_running : Finset TaskId
  runq_complete : Finset TaskId
  holdoff_tasks : Finset TaskId
  tasks_covered : Finset TaskId
  tasks_notcovered : Finset TaskId
  /-- `build_stamps.values()`. -/
  build_stamps : List Text
  /-- `stats.active`. -/
  active : Int
  /-- What `exceeds_max_pressure` returns. -/
  exceeds_max_pressure : Bool

inductive Raised where
  | key_error
  | value_error
  deriving DecidableEq

/-- The set that is called `buildable` in the function. -/
def candidates (rq : RunQueue) (s : RunQueueScheduler) : Finset TaskId :=
  ((s.buildable \ rq.runq_running) \ rq.holdoff_tasks) ∩ (rq.tasks_covered ∪ rq.tasks_notcovered)

/-- One running task: its limit is looked up, and counted against when it has one. -/
def count_running (number_threads : Text → Option Text)
    (acc : OrderedDict Text (Option Text) × OrderedDict Text Nat) (running : TaskId) :
    OrderedDict Text (Option Text) × OrderedDict Text Nat :=
  let rtaskname := running.taskname
  let skip_maxthread :=
    if rtaskname ∈ acc.1.map Prod.fst then acc.1 else acc.1.set rtaskname (number_threads rtaskname)
  if ((skip_maxthread.get? rtaskname).join.getD []) = [] then (skip_maxthread, acc.2)
  else (skip_maxthread, acc.2.set rtaskname ((acc.2.get? rtaskname).getD 0 + 1))

/-- `taskname in skip_buildable and skip_buildable[taskname] >= int(self.skip_maxthread[taskname])`. -/
def limit_reached (skip_maxthread : OrderedDict Text (Option Text)) (skip_buildable : OrderedDict Text Nat)
    (taskname : Text) : Except Raised Bool :=
  match skip_buildable.get? taskname with
  | none => .ok false
  | some count =>
    match (skip_maxthread.get? taskname).join with
    | none => .error .key_error
    | some flag =>
      match int flag with
      | none => .error .value_error
      | some limit => .ok (decide (limit ≤ count))

/-- The branch for one candidate; none where it goes on to the loop, with no candidate left. -/
def fast_path (rq : RunQueue) (s : RunQueueScheduler) (skip_buildable : OrderedDict Text Nat) (tid : TaskId) :
    Except Raised (Option (Option TaskId)) := do
  if ← limit_reached s.skip_maxthread skip_buildable tid.taskname then
    return some none
  match s.stamps.get? tid with
  | none => .error .key_error
  | some stamp => return if stamp ∉ rq.build_stamps then some (some tid) else none

/-- `self.rev_prio_map[tid] = self.prio_map.index(tid)`, task after task. -/
def number (prio_map : List Entry) (rev_prio_map : OrderedDict TaskId Nat) :
    List TaskId → Except Raised Unit × OrderedDict TaskId Nat
  | [] => (.ok (), rev_prio_map)
  | tid :: rest =>
    match prio_map.idxOf? (Entry.task tid) with
    | none => (.error .value_error, rev_prio_map)
    | some index => number prio_map (rev_prio_map.set tid index) rest

/-- One candidate of the loop, against the best one so far with its priority. -/
def consider (rq : RunQueue) (s : RunQueueScheduler) (skip_buildable : OrderedDict Text Nat)
    (best : Option (TaskId × Nat)) (tid : TaskId) : Except Raised (Option (TaskId × Nat)) :=
  match s.rev_prio_map.get? tid with
  | none => .error .key_error
  | some prio =>
    if best.all fun b => prio < b.2 then do
      if ← limit_reached s.skip_maxthread skip_buildable tid.taskname then
        return best
      match s.stamps.get? tid with
      | none => .error .key_error
      | some stamp => return if stamp ∈ rq.build_stamps then best else some (tid, prio)
    else .ok best

def best_of (rq : RunQueue) (s : RunQueueScheduler) (skip_buildable : OrderedDict Text Nat)
    (order : List TaskId) : Except Raised (Option TaskId) := do
  let best ← order.foldlM (consider rq s skip_buildable) none
  return best.map Prod.fst

/-- The map of the indices, and the loop with it. -/
def search (rqdata : RunQueueData) (rq : RunQueue) (s : RunQueueScheduler)
    (skip_buildable : OrderedDict Text Nat) (order : List TaskId) :
    Except Raised (Option TaskId) × RunQueueScheduler :=
  let numbered := if s.rev_prio_map = [] then number s.prio_map [] rqdata.runtaskentries
    else (.ok (), s.rev_prio_map)
  let s := { s with rev_prio_map := numbered.2 }
  match numbered.1 with
  | .error e => (.error e, s)
  | .ok () => (best_of rq s skip_buildable order, s)

/-- `next_buildable_task`, with the orders in which it meets the tasks that are running and the
candidates. -/
def next_buildable_task (rqdata : RunQueueData) (rq : RunQueue) (running order : List TaskId)
    (s : RunQueueScheduler) : Except Raised (Option TaskId) × RunQueueScheduler :=
  let s := { s with buildable := s.buildable \ rq.runq_running }
  if order = [] then (.ok none, s)
  else if rq.active ≠ 0 ∧ rq.exceeds_max_pressure then (.ok none, s)
  else
    let counted := running.foldl (count_running rqdata.number_threads) (s.skip_maxthread, [])
    let s := { s with skip_maxthread := counted.1 }
    match order with
    | [tid] =>
      match fast_path rq s counted.2 tid with
      | .error e => (.error e, s)
      | .ok (some answer) => (.ok answer, s)
      | .ok none => search rqdata rq s counted.2 []
    | order => search rqdata rq s counted.2 order

def newbuildable (s : RunQueueScheduler) (task : TaskId) : RunQueueScheduler :=
  { s with buildable := insert task s.buildable }

def Meets (order : List TaskId) (tasks : Finset TaskId) : Prop := order.Nodup ∧ order.toFinset = tasks

inductive Reached (rqdata : RunQueueData) (kind : Kind) : RunQueueScheduler → Prop
  | init (runq_buildable : Finset TaskId) : Reached rqdata kind (init rqdata kind runq_buildable)
  | newbuildable {s : RunQueueScheduler} (h : Reached rqdata kind s) {task : TaskId}
      (htask : task ∈ rqdata.runtaskentries) : Reached rqdata kind (newbuildable s task)
  | next {s : RunQueueScheduler} (h : Reached rqdata kind s) {rq : RunQueue} {running order : List TaskId}
      (hrunning : Meets running (rq.runq_running \ rq.runq_complete))
      (horder : Meets order (candidates rq s)) :
      Reached rqdata kind (next_buildable_task rqdata rq running order s).2

/-! ## The order of the priorities -/

theorem speed_eq {Tid : Type} (weight : Tid → Nat) (l : List Tid) :
    speed weight l = ((((OrderedDict.group weight id l).map Prod.fst).mergeSort fun a b => decide (a ≤ b)).flatMap
      fun w => l.filter fun tid => decide (weight tid = w)).reverse := by
  unfold speed
  simp only [OrderedDict.get?_group, List.map_id]

theorem mem_weights {Tid : Type} (weight : Tid → Nat) (l : List Tid) (w : Nat) :
    w ∈ ((OrderedDict.group weight id l).map Prod.fst).mergeSort (fun a b => decide (a ≤ b)) ↔
      ∃ tid ∈ l, weight tid = w := by
  rw [List.mem_mergeSort, OrderedDict.key_group]

theorem weights_sorted {Tid : Type} (weight : Tid → Nat) (l : List Tid) :
    (((OrderedDict.group weight id l).map Prod.fst).mergeSort fun a b => decide (a ≤ b)).Pairwise (· < ·) :=
  OrderedDict.pairwise_sorted_keys (OrderedDict.group_keys_nodup weight id l)

theorem weight_of_mem {Tid : Type} {weight : Tid → Nat} {l : List Tid} {w : Nat} {tid : Tid}
    (h : tid ∈ l.filter fun tid => decide (weight tid = w)) : weight tid = w := by
  simpa using (List.mem_filter.mp h).2

theorem speed_sorted {Tid : Type} (weight : Tid → Nat) (l : List Tid) :
    (speed weight l).Pairwise fun a b => weight b ≤ weight a := by
  rw [speed_eq, List.pairwise_reverse, List.pairwise_flatMap]
  refine ⟨fun w _ => ?_, (weights_sorted weight l).imp fun hlt a ha b hb => ?_⟩
  · refine List.pairwise_of_forall_mem_list fun a ha b hb => ?_
    rw [weight_of_mem ha, weight_of_mem hb]
  · rw [weight_of_mem ha, weight_of_mem hb]
    omega

theorem mem_speed {Tid : Type} (weight : Tid → Nat) (l : List Tid) (tid : Tid) :
    tid ∈ speed weight l ↔ tid ∈ l := by
  rw [speed_eq, List.mem_reverse, List.mem_flatMap]
  simp only [List.mem_filter, decide_eq_true_eq]
  constructor
  · rintro ⟨w, _, hmem, _⟩
    exact hmem
  · intro h
    exact ⟨weight tid, (mem_weights weight l _).mpr ⟨tid, h, rfl⟩, h, rfl⟩

theorem speed_nodup {Tid : Type} (weight : Tid → Nat) {l : List Tid} (h : l.Nodup) :
    (speed weight l).Nodup := by
  rw [speed_eq, List.nodup_reverse, List.nodup_flatMap]
  refine ⟨fun w _ => h.filter _, (weights_sorted weight l).imp fun hlt => ?_⟩
  intro tid ha hb
  have hweight := (weight_of_mem ha).symm.trans (weight_of_mem hb)
  omega

theorem speed_perm {Tid : Type} (weight : Tid → Nat) {l : List Tid} (h : l.Nodup) :
    (speed weight l).Perm l :=
  (List.perm_ext_iff_of_nodup (speed_nodup weight h) h).mpr (mem_speed weight l)

theorem priority_task (l : List TaskId) : priority (l.map Entry.task) = l := by
  induction l with
  | nil => rfl
  | cons tid l ih =>
    have hcons : priority ((tid :: l).map Entry.task) = tid :: priority (l.map Entry.task) := rfl
    rw [hcons, ih]

theorem priority_perm (rqdata : RunQueueData) (kind : Kind) :
    (priority (kind.prio_map rqdata)).Perm rqdata.runtaskentries := by
  have hspeed := speed_perm rqdata.weight rqdata.nodup
  cases kind with
  | basic =>
    have hkeys : priority (Kind.basic.prio_map rqdata) = rqdata.runtaskentries := List.append_nil _
    rw [hkeys]
  | speed => rwa [Kind.prio_map, priority_task]
  | completion =>
    rw [Kind.prio_map, priority_task]
    exact (move_names_perm _ [] _ (Nat.zero_add _).symm).trans hspeed

/-! ## What may start -/

def active_of (rq : RunQueue) (taskname : Text) : Nat :=
  ((rq.runq_running \ rq.runq_complete).filter fun tid => tid.taskname = taskname).card

/-- The number that the flag of a name says. -/
def limit (rqdata : RunQueueData) (taskname : Text) : Option Int :=
  (rqdata.number_threads taskname).bind int

structure Eligible (rqdata : RunQueueData) (rq : RunQueue) (s : RunQueueScheduler) (tid : TaskId) : Prop where
  buildable : tid ∈ s.buildable
  not_running : tid ∉ rq.runq_running
  not_held : tid ∉ rq.holdoff_tasks
  covered : tid ∈ rq.tasks_covered ∨ tid ∈ rq.tasks_notcovered
  below : ∀ n, limit rqdata tid.taskname = some n → (active_of rq tid.taskname : Int) < n
  stamp : rqdata.stampfile tid ∉ rq.build_stamps

/-- Tasks of the name are running, and as many as its limit says. -/
def LimitReached (rqdata : RunQueueData) (rq : RunQueue) (tid : TaskId) : Prop :=
  active_of rq tid.taskname ≠ 0 ∧ ∃ n, limit rqdata tid.taskname = some n ∧ n ≤ active_of rq tid.taskname

/-- The flag of a name with running tasks is empty, or a number. -/
def Readable (rqdata : RunQueueData) (rq : RunQueue) (tid : TaskId) : Prop :=
  active_of rq tid.taskname ≠ 0 → ∀ flag, rqdata.number_threads tid.taskname = some flag → flag ≠ [] →
    (int flag).isSome

/-- The code starts at this task when no other one comes first. -/
def Startable (rqdata : RunQueueData) (rq : RunQueue) (s : RunQueueScheduler) (tid : TaskId) : Prop :=
  tid ∈ candidates rq s ∧ ¬LimitReached rqdata rq tid ∧ rqdata.stampfile tid ∉ rq.build_stamps

theorem mem_candidates {rq : RunQueue} {s : RunQueueScheduler} {tid : TaskId} :
    tid ∈ candidates rq s ↔ tid ∈ s.buildable ∧ tid ∉ rq.runq_running ∧ tid ∉ rq.holdoff_tasks ∧
      (tid ∈ rq.tasks_covered ∨ tid ∈ rq.tasks_notcovered) := by
  simp only [candidates, Finset.mem_inter, Finset.mem_sdiff, Finset.mem_union]
  tauto

theorem eligible_iff {rqdata : RunQueueData} {rq : RunQueue} {s : RunQueueScheduler} {tid : TaskId} :
    Eligible rqdata rq s tid ↔ Startable rqdata rq s tid ∧
      ¬(active_of rq tid.taskname = 0 ∧ ∃ n, limit rqdata tid.taskname = some n ∧ n ≤ 0) := by
  constructor
  · intro h
    refine ⟨⟨mem_candidates.mpr ⟨h.buildable, h.not_running, h.not_held, h.covered⟩, ?_, h.stamp⟩, ?_⟩
    · rintro ⟨_, n, hn, hle⟩
      have := h.below n hn
      omega
    · rintro ⟨hzero, n, hn, hle⟩
      have := h.below n hn
      omega
  · rintro ⟨⟨hmem, hlimit, hstamp⟩, hzero⟩
    obtain ⟨hb, hr, hh, hc⟩ := mem_candidates.mp hmem
    refine ⟨hb, hr, hh, hc, fun n hn => ?_, hstamp⟩
    by_contra hlt
    by_cases hactive : active_of rq tid.taskname = 0
    · exact hzero ⟨hactive, n, hn, by omega⟩
    · exact hlimit ⟨hactive, n, hn, by omega⟩

/-! ## The invariant -/

/-- What holds of a scheduler from its constructor on. -/
structure Sound (rqdata : RunQueueData) (kind : Kind) (s : RunQueueScheduler) : Prop where
  prio_map : s.prio_map = kind.prio_map rqdata
  buildable : ∀ tid ∈ s.buildable, tid ∈ rqdata.runtaskentries
  stamps : s.stamps = rqdata.runtaskentries.map fun tid => (tid, rqdata.stampfile tid)
  skip_maxthread : ∀ name flag, s.skip_maxthread.get? name = some flag → flag = rqdata.number_threads name
  rev_prio_map : s.rev_prio_map = [] ∨ (kind ≠ .basic ∧ ∀ tid ∈ rqdata.runtaskentries,
    s.rev_prio_map.get? tid = some ((priority s.prio_map).idxOf tid))

theorem init_sound (rqdata : RunQueueData) (kind : Kind) (runq_buildable : Finset TaskId) :
    Sound rqdata kind (init rqdata kind runq_buildable) where
  prio_map := rfl
  buildable := by
    intro tid h
    exact List.mem_toFinset.mp (Finset.mem_inter.mp h).1
  stamps := rfl
  skip_maxthread := by
    intro name flag h
    cases h
  rev_prio_map := Or.inl rfl

theorem stamps_get {rqdata : RunQueueData} {kind : Kind} {s : RunQueueScheduler} (h : Sound rqdata kind s)
    {tid : TaskId} (htid : tid ∈ rqdata.runtaskentries) : s.stamps.get? tid = some (rqdata.stampfile tid) := by
  rw [h.stamps]
  exact OrderedDict.get?_comprehension _ _ htid

/-! ## The limits -/

/-- The counts of the names with a limit, and the limits of all names of running tasks. -/
structure Counted (number_threads : Text → Option Text) (running : List TaskId)
    (acc : OrderedDict Text (Option Text) × OrderedDict Text Nat) : Prop where
  known : ∀ name flag, acc.1.get? name = some flag → flag = number_threads name
  asked : ∀ tid ∈ running, acc.1.get? tid.taskname = some (number_threads tid.taskname)
  counts : ∀ name, acc.2.get? name =
    if (number_threads name).getD [] ≠ [] ∧ (running.filter fun tid => tid.taskname = name) ≠ [] then
      some (running.filter fun tid => tid.taskname = name).length
    else none

theorem Counted.step {number_threads : Text → Option Text} {running : List TaskId}
    {acc : OrderedDict Text (Option Text) × OrderedDict Text Nat} (h : Counted number_threads running acc)
    (tid : TaskId) : Counted number_threads (running ++ [tid]) (count_running number_threads acc tid) := by
  -- the limits, once the name of the task is among them
  have hlimits : ∃ limits : OrderedDict Text (Option Text),
      (if tid.taskname ∈ acc.1.map Prod.fst then acc.1
        else acc.1.set tid.taskname (number_threads tid.taskname)) = limits ∧
      limits.get? tid.taskname = some (number_threads tid.taskname) ∧
      ∀ name, name ≠ tid.taskname → limits.get? name = acc.1.get? name := by
    by_cases hin : tid.taskname ∈ acc.1.map Prod.fst
    · refine ⟨acc.1, if_pos hin, ?_, fun _ _ => rfl⟩
      obtain ⟨flag, hflag⟩ := OrderedDict.get?_of_key hin
      rw [hflag, h.known _ _ hflag]
    · exact ⟨_, if_neg hin, OrderedDict.get?_set_self _ _ _, fun _ hne => OrderedDict.get?_set_other _ _ hne⟩
  obtain ⟨limits, hdef, hself, hother⟩ := hlimits
  have hknown : ∀ name flag, limits.get? name = some flag → flag = number_threads name := by
    intro name flag hflag
    by_cases hname : name = tid.taskname
    · subst hname
      rw [hself] at hflag
      exact (Option.some.inj hflag).symm
    · rw [hother name hname] at hflag
      exact h.known name flag hflag
  have hasked : ∀ other ∈ running ++ [tid], limits.get? other.taskname = some (number_threads other.taskname) := by
    intro other hmem
    by_cases hname : other.taskname = tid.taskname
    · rw [hname, hself]
    · rw [hother _ hname]
      rcases List.mem_append.mp hmem with hmem | hmem
      · exact h.asked other hmem
      · exact absurd (congrArg TaskId.taskname (List.mem_singleton.mp hmem)) hname
  have hfilter : ∀ name, name ≠ tid.taskname →
      ((running ++ [tid]).filter fun other => decide (other.taskname = name)) =
        running.filter fun other => decide (other.taskname = name) := by
    intro name hname
    simp [Ne.symm hname]
  have hcount : count_running number_threads acc tid = if (number_threads tid.taskname).getD [] = [] then (limits, acc.2)
      else (limits, acc.2.set tid.taskname ((acc.2.get? tid.taskname).getD 0 + 1)) := by
    unfold count_running
    simp only [hdef, hself, Option.join_some]
  rw [hcount]
  by_cases hflag : (number_threads tid.taskname).getD [] = []
  · rw [if_pos hflag]
    refine ⟨hknown, hasked, fun name => ?_⟩
    by_cases hname : name = tid.taskname
    · subst hname
      rw [h.counts, if_neg (fun hand => hand.1 hflag), if_neg (fun hand => hand.1 hflag)]
    · rw [hfilter name hname]
      exact h.counts name
  · rw [if_neg hflag]
    refine ⟨hknown, hasked, fun name => ?_⟩
    by_cases hname : name = tid.taskname
    · subst hname
      rw [OrderedDict.get?_set_self, if_pos ⟨hflag, by simp⟩, h.counts]
      by_cases hempty : (running.filter fun other => decide (other.taskname = tid.taskname)) = []
      · rw [if_neg (fun hand => hand.2 hempty), List.filter_append, hempty]
        simp
      · rw [if_pos ⟨hflag, hempty⟩, List.filter_append]
        simp
    · rw [OrderedDict.get?_set_other _ _ hname, hfilter name hname]
      exact h.counts name

theorem counted {rqdata : RunQueueData} {kind : Kind} {s : RunQueueScheduler} (h : Sound rqdata kind s)
    (running : List TaskId) : Counted rqdata.number_threads running
      (running.foldl (count_running rqdata.number_threads) (s.skip_maxthread, [])) := by
  induction running using List.reverseRecOn with
  | nil => exact ⟨h.skip_maxthread, by simp, fun name => by simp [OrderedDict.get?]⟩
  | append_singleton running tid ih =>
    rw [List.foldl_append]
    exact ih.step tid

theorem active_of_eq {rq : RunQueue} {running : List TaskId}
    (h : Meets running (rq.runq_running \ rq.runq_complete)) (name : Text) :
    active_of rq name = (running.filter fun tid => tid.taskname = name).length := by
  unfold active_of
  rw [← List.toFinset_card_of_nodup (h.1.filter _), List.toFinset_filter, h.2]
  simp

theorem limit_reached_eq {rqdata : RunQueueData} {rq : RunQueue} {running : List TaskId}
    (hrunning : Meets running (rq.runq_running \ rq.runq_complete))
    {acc : OrderedDict Text (Option Text) × OrderedDict Text Nat}
    (hcounted : Counted rqdata.number_threads running acc) (tid : TaskId) :
    (Readable rqdata rq tid →
      ∃ reached, limit_reached acc.1 acc.2 tid.taskname = .ok reached ∧
        (reached = true ↔ LimitReached rqdata rq tid)) ∧
    (¬Readable rqdata rq tid → limit_reached acc.1 acc.2 tid.taskname = .error .value_error) := by
  have hactive := active_of_eq hrunning tid.taskname
  unfold limit_reached
  rw [hcounted.counts]
  by_cases hnone : (running.filter fun other => decide (other.taskname = tid.taskname)) = []
  · have hzero : active_of rq tid.taskname = 0 := by rw [hactive, hnone, List.length_nil]
    rw [if_neg fun hand => hand.2 hnone]
    exact ⟨fun _ => ⟨false, rfl, by simp [LimitReached, hzero]⟩, fun h => absurd (fun hne => absurd hzero hne) h⟩
  · have hpos : active_of rq tid.taskname ≠ 0 := by
      rw [hactive]
      exact fun h => hnone (List.eq_nil_of_length_eq_zero h)
    obtain ⟨other, hother⟩ := List.exists_mem_of_ne_nil _ hnone
    have hname : other.taskname = tid.taskname := by simpa using (List.mem_filter.mp hother).2
    have hasked := hcounted.asked other (List.mem_filter.mp hother).1
    rw [hname] at hasked
    cases hflag : rqdata.number_threads tid.taskname with
    | none =>
      have hlimit : limit rqdata tid.taskname = none := by rw [limit, hflag, Option.bind_none]
      rw [if_neg (by simp)]
      refine ⟨fun _ => ⟨false, rfl, by simp [LimitReached, hlimit]⟩, fun h => ?_⟩
      refine absurd ?_ h
      intro _ flag hsome
      rw [hflag] at hsome
      cases hsome
    | some flag =>
      have hlimit : limit rqdata tid.taskname = int flag := by rw [limit, hflag, Option.bind_some]
      by_cases hempty : flag = []
      · subst hempty
        have hint : int [] = none := rfl
        rw [if_neg (by simp)]
        refine ⟨fun _ => ⟨false, rfl, by simp [LimitReached, hlimit, hint]⟩, fun h => ?_⟩
        refine absurd ?_ h
        intro _ flag hsome hne
        rw [hflag] at hsome
        exact absurd (Option.some.inj hsome).symm hne
      · rw [if_pos ⟨by simpa using hempty, hnone⟩, hasked, hflag, Option.join_some, ← hactive]
        constructor
        · intro hreadable
          obtain ⟨n, hn⟩ := Option.isSome_iff_exists.mp (hreadable hpos flag hflag hempty)
          simp only [hn]
          refine ⟨_, rfl, ?_⟩
          simp [LimitReached, hlimit, hn, hpos]
        · intro h
          cases hint : int flag with
          | none => simp only [hint]
          | some n =>
            refine absurd ?_ h
            intro _ flag' hsome _
            rw [hflag] at hsome
            rw [← Option.some.inj hsome, hint, Option.isSome_some]

/-! ## The map of the indices -/

theorem number_tasks {l : List TaskId} (rest : List TaskId) (hrest : ∀ tid ∈ rest, tid ∈ l)
    (rev : OrderedDict TaskId Nat) :
    (number (l.map Entry.task) rev rest).1 = .ok () ∧
      ∀ tid, (number (l.map Entry.task) rev rest).2.get? tid =
        if tid ∈ rest then some (l.idxOf tid) else rev.get? tid := by
  induction rest generalizing rev with
  | nil => exact ⟨rfl, by simp [number]⟩
  | cons tid rest ih =>
    have hindex : (l.map Entry.task).idxOf? (Entry.task tid) = some (l.idxOf tid) := by
      have hmem : tid ∈ l := hrest tid List.mem_cons_self
      rw [List.idxOf?_eq_some_iff]
      refine ⟨by simpa using List.idxOf_lt_length_of_mem hmem, by simp, fun j hj => ?_⟩
      have hlt : j < l.length := hj.trans (List.idxOf_lt_length_of_mem hmem)
      simp only [List.getElem_map, Entry.task.injEq]
      have hbefore := List.not_of_lt_findIdx hj
      simpa using hbefore
    rw [number, hindex]
    obtain ⟨hok, hget⟩ := ih (fun other h => hrest other (List.mem_cons_of_mem _ h)) (rev.set tid (l.idxOf tid))
    refine ⟨hok, fun other => ?_⟩
    dsimp only
    rw [hget]
    by_cases hother : other ∈ rest
    · rw [if_pos hother, if_pos (List.mem_cons_of_mem _ hother)]
    · rw [if_neg hother]
      by_cases heq : other = tid
      · subst heq
        rw [OrderedDict.get?_set_self, if_pos List.mem_cons_self]
      · rw [OrderedDict.get?_set_other _ _ heq, if_neg (by simp [heq, hother])]

theorem number_keys (keys : List TaskId) (tid : TaskId) (rest : List TaskId) :
    number [Entry.keys keys] [] (tid :: rest) = (.error .value_error, []) := by
  have hnone : [Entry.keys keys].idxOf? (Entry.task tid) = none := by
    rw [List.idxOf?_eq_none_iff]
    simp
  rw [number, hnone]

theorem prio_map_tasks (rqdata : RunQueueData) {kind : Kind} (h : kind ≠ .basic) :
    kind.prio_map rqdata = (priority (kind.prio_map rqdata)).map Entry.task := by
  cases kind with
  | basic => exact absurd rfl h
  | speed => rw [Kind.prio_map, priority_task]
  | completion => rw [Kind.prio_map, priority_task]

theorem search_sound {rqdata : RunQueueData} {kind : Kind} {s : RunQueueScheduler} (h : Sound rqdata kind s)
    (rq : RunQueue) (skip_buildable : OrderedDict Text Nat) (order : List TaskId) :
    Sound rqdata kind (search rqdata rq s skip_buildable order).2 := by
  have hstate : (search rqdata rq s skip_buildable order).2 = { s with rev_prio_map :=
      (if s.rev_prio_map = [] then number s.prio_map [] rqdata.runtaskentries else (.ok (), s.rev_prio_map)).2 } := by
    unfold search
    dsimp only
    split
    · rfl
    · rfl
  rw [hstate]
  refine ⟨h.prio_map, h.buildable, h.stamps, h.skip_maxthread, ?_⟩
  dsimp only
  by_cases hrev : s.rev_prio_map = []
  · rw [if_pos hrev, h.prio_map]
    by_cases hkind : kind = .basic
    · subst hkind
      left
      cases hentries : rqdata.runtaskentries with
      | nil => rfl
      | cons tid rest => rw [Kind.prio_map, number_keys]
    · right
      refine ⟨hkind, fun tid htid => ?_⟩
      have hmem : ∀ tid ∈ rqdata.runtaskentries, tid ∈ priority (kind.prio_map rqdata) :=
        fun tid htid => (priority_perm rqdata kind).mem_iff.mpr htid
      have hnumber := (number_tasks rqdata.runtaskentries hmem []).2 tid
      rw [← prio_map_tasks rqdata hkind, if_pos htid] at hnumber
      exact hnumber
  · rw [if_neg hrev]
    exact h.rev_prio_map

theorem Sound.counted {rqdata : RunQueueData} {kind : Kind} {s : RunQueueScheduler} (h : Sound rqdata kind s)
    (rq : RunQueue) (running : List TaskId) :
    Sound rqdata kind { s with
      buildable := s.buildable \ rq.runq_running
      skip_maxthread := (running.foldl (count_running rqdata.number_threads) (s.skip_maxthread, [])).1 } where
  prio_map := h.prio_map
  buildable := fun tid htid => h.buildable tid (Finset.mem_sdiff.mp htid).1
  stamps := h.stamps
  skip_maxthread := (schedulers.counted h running).known
  rev_prio_map := h.rev_prio_map

theorem next_sound {rqdata : RunQueueData} {kind : Kind} {s : RunQueueScheduler} (h : Sound rqdata kind s)
    (rq : RunQueue) (running order : List TaskId) :
    Sound rqdata kind (next_buildable_task rqdata rq running order s).2 := by
  have hless : Sound rqdata kind { s with buildable := s.buildable \ rq.runq_running } :=
    ⟨h.prio_map, fun tid htid => h.buildable tid (Finset.mem_sdiff.mp htid).1, h.stamps, h.skip_maxthread,
      h.rev_prio_map⟩
  have hcounted := h.counted rq running
  unfold next_buildable_task
  dsimp only
  split
  · exact hless
  split
  · exact hless
  split
  · split
    · exact hcounted
    · exact hcounted
    · exact search_sound hcounted rq _ _
  · exact search_sound hcounted rq _ _

theorem reached_sound {rqdata : RunQueueData} {kind : Kind} {s : RunQueueScheduler}
    (h : Reached rqdata kind s) : Sound rqdata kind s := by
  induction h with
  | init runq_buildable => exact init_sound rqdata kind runq_buildable
  | newbuildable _ htask ih =>
    refine ⟨ih.prio_map, fun tid htid => ?_, ih.stamps, ih.skip_maxthread, ih.rev_prio_map⟩
    rcases Finset.mem_insert.mp htid with rfl | htid
    · exact htask
    · exact ih.buildable tid htid
  | next _ _ _ ih => exact next_sound ih _ _ _

/-! ## The loop -/

/-- Nothing but a better candidate is in the way of the task. -/
def Free (rqdata : RunQueueData) (rq : RunQueue) (tid : TaskId) : Prop :=
  ¬LimitReached rqdata rq tid ∧ rqdata.stampfile tid ∉ rq.build_stamps

/-- What the loop reads of its candidates. -/
structure Known (rqdata : RunQueueData) (rq : RunQueue) (s : RunQueueScheduler)
    (skip_buildable : OrderedDict Text Nat) (tid : TaskId) : Prop where
  limit : ∃ reached, limit_reached s.skip_maxthread skip_buildable tid.taskname = .ok reached ∧
    (reached = true ↔ LimitReached rqdata rq tid)
  stamp : s.stamps.get? tid = some (rqdata.stampfile tid)

theorem consider_cases {rqdata : RunQueueData} {rq : RunQueue} {s : RunQueueScheduler}
    {skip_buildable : OrderedDict Text Nat} {tid : TaskId} (h : Known rqdata rq s skip_buildable tid)
    {prio : Nat} (hprio : s.rev_prio_map.get? tid = some prio) (best : Option (TaskId × Nat)) :
    ∃ next, consider rq s skip_buildable best tid = .ok next ∧
      ((next = some (tid, prio) ∧ Free rqdata rq tid ∧ ∀ b, best = some b → prio < b.2) ∨
        (next = best ∧ (Free rqdata rq tid → ∃ b, best = some b ∧ b.2 ≤ prio))) := by
  obtain ⟨reached, hreached, hiff⟩ := h.limit
  unfold consider
  rw [hprio]
  by_cases hbest : best.all (fun b => prio < b.2)
  · have hless : ∀ b, best = some b → prio < b.2 := by
      rintro b rfl
      simpa using hbest
    simp only [if_pos hbest, hreached, h.stamp]
    cases reached with
    | true => exact ⟨best, rfl, Or.inr ⟨rfl, fun hfree => absurd (hiff.mp rfl) hfree.1⟩⟩
    | false =>
      have hlimit : ¬LimitReached rqdata rq tid := fun h => absurd (hiff.mpr h) (by simp)
      by_cases hstamp : rqdata.stampfile tid ∈ rq.build_stamps
      · refine ⟨best, ?_, Or.inr ⟨rfl, fun hfree => absurd hstamp hfree.2⟩⟩
        simp [hstamp, pure, bind, Except.bind, Except.pure]
      · refine ⟨some (tid, prio), ?_, Or.inl ⟨rfl, ⟨hlimit, hstamp⟩, hless⟩⟩
        simp [hstamp, pure, bind, Except.bind, Except.pure]
  · refine ⟨best, by simp only [if_neg hbest], Or.inr ⟨rfl, fun _ => ?_⟩⟩
    cases best with
    | none => simp at hbest
    | some b => exact ⟨b, rfl, by simpa using hbest⟩

theorem scan {rqdata : RunQueueData} {rq : RunQueue} {s : RunQueueScheduler}
    {skip_buildable : OrderedDict Text Nat} (prio : TaskId → Nat) (order : List TaskId)
    (h : ∀ tid ∈ order, Known rqdata rq s skip_buildable tid)
    (hprio : ∀ tid ∈ order, s.rev_prio_map.get? tid = some (prio tid)) (best : Option (TaskId × Nat)) :
    ∃ last, order.foldlM (consider rq s skip_buildable) best = .ok last ∧
      (∀ b, last = some b → best = some b ∨ (b.1 ∈ order ∧ Free rqdata rq b.1 ∧ b.2 = prio b.1)) ∧
      (∀ b, best = some b → ∃ c, last = some c ∧ c.2 ≤ b.2) ∧
      ∀ tid ∈ order, Free rqdata rq tid → ∃ c, last = some c ∧ c.2 ≤ prio tid := by
  induction order generalizing best with
  | nil => exact ⟨best, rfl, fun _ h => Or.inl h, fun b h => ⟨b, h, Nat.le_refl _⟩, by simp⟩
  | cons tid order ih =>
    obtain ⟨next, hnext, hcases⟩ :=
      consider_cases (h tid List.mem_cons_self) (hprio tid List.mem_cons_self) best
    obtain ⟨last, hlast, hfrom, hkept, hleast⟩ := ih (fun other hother => h other (List.mem_cons_of_mem _ hother))
      (fun other hother => hprio other (List.mem_cons_of_mem _ hother)) next
    refine ⟨last, by rw [List.foldlM_cons, hnext]; exact hlast, fun b hb => ?_, fun b hb => ?_, ?_⟩
    · rcases hfrom b hb with hold | ⟨hmem, hfree, heq⟩
      · rcases hcases with ⟨rfl, hfree, _⟩ | ⟨rfl, _⟩
        · obtain rfl := Option.some.inj hold
          exact Or.inr ⟨List.mem_cons_self, hfree, rfl⟩
        · exact Or.inl hold
      · exact Or.inr ⟨List.mem_cons_of_mem _ hmem, hfree, heq⟩
    · rcases hcases with ⟨rfl, _, hless⟩ | ⟨rfl, _⟩
      · obtain ⟨c, hc, hle⟩ := hkept _ rfl
        have hlt := hless b hb
        exact ⟨c, hc, by dsimp only at hle; omega⟩
      · exact hkept b hb
    · intro other hother hfree
      rcases List.mem_cons.mp hother with rfl | hother
      · rcases hcases with ⟨rfl, _, _⟩ | ⟨rfl, hbest⟩
        · exact hkept _ rfl
        · obtain ⟨b, hb, hle⟩ := hbest hfree
          obtain ⟨c, hc, hle'⟩ := hkept b hb
          exact ⟨c, hc, hle'.trans hle⟩
      · exact hleast other hother hfree

theorem best_of_spec {rqdata : RunQueueData} {rq : RunQueue} {s : RunQueueScheduler}
    {skip_buildable : OrderedDict Text Nat} (prio : TaskId → Nat) {order : List TaskId}
    (h : ∀ tid ∈ order, Known rqdata rq s skip_buildable tid)
    (hprio : ∀ tid ∈ order, s.rev_prio_map.get? tid = some (prio tid)) :
    ∃ answer, best_of rq s skip_buildable order = .ok answer ∧
      (∀ tid, answer = some tid → tid ∈ order ∧ Free rqdata rq tid ∧
        ∀ other ∈ order, Free rqdata rq other → prio tid ≤ prio other) ∧
      (answer = none → ∀ tid ∈ order, ¬Free rqdata rq tid) := by
  obtain ⟨last, hlast, hfrom, _, hleast⟩ := scan prio order h hprio none
  refine ⟨last.map Prod.fst, by rw [best_of, hlast]; rfl, fun tid htid => ?_, fun hnone tid hmem hfree => ?_⟩
  · obtain ⟨b, rfl, rfl⟩ := Option.map_eq_some_iff.mp htid
    rcases hfrom b rfl with hnone | ⟨hmem, hfree, heq⟩
    · cases hnone
    · refine ⟨hmem, hfree, fun other hother hof => ?_⟩
      obtain ⟨c, hc, hle⟩ := hleast other hother hof
      obtain rfl := Option.some.inj hc
      rwa [← heq]
  · obtain ⟨c, hc, _⟩ := hleast tid hmem hfree
    rw [hc] at hnone
    cases hnone

theorem best_of_unreadable {rq : RunQueue} {s : RunQueueScheduler} {skip_buildable : OrderedDict Text Nat}
    {tid : TaskId} (hlimit : limit_reached s.skip_maxthread skip_buildable tid.taskname = .error .value_error)
    {prio : Nat} (hprio : s.rev_prio_map.get? tid = some prio) (order : List TaskId) :
    best_of rq s skip_buildable (tid :: order) = .error .value_error := by
  have hfirst : consider rq s skip_buildable none tid = .error .value_error := by
    unfold consider
    rw [hprio]
    simp only [Option.all_none, if_true, hlimit]
    rfl
  rw [best_of, List.foldlM_cons, hfirst]
  rfl

/-! ## The search -/

theorem search_basic {rqdata : RunQueueData} {s : RunQueueScheduler} (h : Sound rqdata .basic s)
    (hne : rqdata.runtaskentries ≠ []) (rq : RunQueue) (skip_buildable : OrderedDict Text Nat)
    (order : List TaskId) : (search rqdata rq s skip_buildable order).1 = .error .value_error := by
  have hrev : s.rev_prio_map = [] := by
    rcases h.rev_prio_map with hrev | ⟨hkind, _⟩
    · exact hrev
    · exact absurd rfl hkind
  obtain ⟨tid, rest, hentries⟩ := List.exists_cons_of_ne_nil hne
  unfold search
  simp only [if_pos hrev, h.prio_map, hentries, Kind.prio_map, number_keys]

theorem search_tasks {rqdata : RunQueueData} {kind : Kind} {s : RunQueueScheduler} (h : Sound rqdata kind s)
    (hkind : kind ≠ .basic) (rq : RunQueue) (skip_buildable : OrderedDict Text Nat) (order : List TaskId) :
    ∃ rev : OrderedDict TaskId Nat,
      (∀ tid ∈ rqdata.runtaskentries, rev.get? tid = some ((priority (kind.prio_map rqdata)).idxOf tid)) ∧
      (search rqdata rq s skip_buildable order).1 =
        best_of rq { s with rev_prio_map := rev } skip_buildable order := by
  have hmem : ∀ tid ∈ rqdata.runtaskentries, tid ∈ priority (kind.prio_map rqdata) :=
    fun tid htid => (priority_perm rqdata kind).mem_iff.mpr htid
  by_cases hrev : s.rev_prio_map = []
  · have hnumber := number_tasks rqdata.runtaskentries hmem []
    rw [← prio_map_tasks rqdata hkind] at hnumber
    refine ⟨(number (kind.prio_map rqdata) [] rqdata.runtaskentries).2, fun tid htid => ?_, ?_⟩
    · rw [hnumber.2, if_pos htid]
    · unfold search
      simp only [if_pos hrev, h.prio_map, hnumber.1]
  · rcases h.rev_prio_map with hempty | ⟨_, hget⟩
    · exact absurd hempty hrev
    · refine ⟨s.rev_prio_map, fun tid htid => ?_, ?_⟩
      · rw [← h.prio_map]
        exact hget tid htid
      · unfold search
        simp only [if_neg hrev]

/-! ## The choice -/

/-- A limit of the load holds new tasks back. -/
def Pressured (rq : RunQueue) : Prop := rq.active ≠ 0 ∧ rq.exceeds_max_pressure

/-- The scheduler once the limits of the running tasks are counted, and the counts. -/
def started (rqdata : RunQueueData) (rq : RunQueue) (running : List TaskId) (s : RunQueueScheduler) :
    RunQueueScheduler :=
  { s with
    buildable := s.buildable \ rq.runq_running
    skip_maxthread := (running.foldl (count_running rqdata.number_threads) (s.skip_maxthread, [])).1 }

def skips (rqdata : RunQueueData) (running : List TaskId) (s : RunQueueScheduler) : OrderedDict Text Nat :=
  (running.foldl (count_running rqdata.number_threads) (s.skip_maxthread, [])).2

theorem next_nil (rqdata : RunQueueData) (rq : RunQueue) (running : List TaskId) (s : RunQueueScheduler) :
    (next_buildable_task rqdata rq running [] s).1 = .ok none := rfl

theorem next_pressured {rqdata : RunQueueData} {rq : RunQueue} (h : Pressured rq) (running order : List TaskId)
    (s : RunQueueScheduler) : (next_buildable_task rqdata rq running order s).1 = .ok none := by
  unfold Pressured at h
  unfold next_buildable_task
  dsimp only
  split
  · rfl
  · rfl

theorem next_single {rqdata : RunQueueData} {rq : RunQueue} (h : ¬Pressured rq) (running : List TaskId)
    (tid : TaskId) (s : RunQueueScheduler) :
    (next_buildable_task rqdata rq running [tid] s).1 =
      match fast_path rq (started rqdata rq running s) (skips rqdata running s) tid with
      | .error e => .error e
      | .ok (some answer) => .ok answer
      | .ok none => (search rqdata rq (started rqdata rq running s) (skips rqdata running s) []).1 := by
  unfold Pressured at h
  unfold next_buildable_task
  dsimp only
  rw [if_neg (List.cons_ne_nil tid []), if_neg h]
  unfold started skips
  split
  · simp only [*]
  · simp only [*]
  · simp only [*]

theorem next_many {rqdata : RunQueueData} {rq : RunQueue} (h : ¬Pressured rq) (running : List TaskId)
    {order : List TaskId} (horder : 2 ≤ order.length) (s : RunQueueScheduler) :
    (next_buildable_task rqdata rq running order s).1 =
      (search rqdata rq (started rqdata rq running s) (skips rqdata running s) order).1 := by
  unfold Pressured at h
  unfold next_buildable_task
  dsimp only
  match order with
  | [] => simp at horder
  | [_] => simp at horder
  | a :: b :: rest =>
    rw [if_neg (List.cons_ne_nil a _), if_neg h]
    rfl

theorem fast_path_eq {rqdata : RunQueueData} {rq : RunQueue} {s : RunQueueScheduler}
    {skip_buildable : OrderedDict Text Nat} {tid : TaskId} (h : Known rqdata rq s skip_buildable tid) :
    (LimitReached rqdata rq tid → fast_path rq s skip_buildable tid = .ok (some none)) ∧
      (Free rqdata rq tid → fast_path rq s skip_buildable tid = .ok (some (some tid))) ∧
      (¬LimitReached rqdata rq tid → rqdata.stampfile tid ∈ rq.build_stamps →
        fast_path rq s skip_buildable tid = .ok none) := by
  obtain ⟨reached, hreached, hiff⟩ := h.limit
  unfold fast_path
  rw [hreached, h.stamp]
  cases reached with
  | true => exact ⟨fun _ => rfl, fun hfree => absurd (hiff.mp rfl) hfree.1, fun hnot => absurd (hiff.mp rfl) hnot⟩
  | false =>
    refine ⟨fun hlimit => absurd (hiff.mpr hlimit) (by simp), fun hfree => ?_, fun _ hstamp => ?_⟩
    · simp [hfree.2, pure, bind, Except.bind, Except.pure]
    · simp [hstamp, pure, bind, Except.bind, Except.pure]

theorem fast_path_agrees (rq : RunQueue) (s : RunQueueScheduler) (skip_buildable : OrderedDict Text Nat)
    (tid : TaskId) (rev : OrderedDict TaskId Nat) {prio : Nat} (hprio : rev.get? tid = some prio) :
    (fast_path rq s skip_buildable tid).map Option.join =
      best_of rq { s with rev_prio_map := rev } skip_buildable [tid] := by
  unfold fast_path best_of
  rw [List.foldlM_cons, consider]
  simp only [hprio, Option.all_none, if_true]
  cases limit_reached s.skip_maxthread skip_buildable tid.taskname with
  | error e => rfl
  | ok reached =>
    cases reached with
    | true => rfl
    | false =>
      cases s.stamps.get? tid with
      | none => rfl
      | some stamp =>
        by_cases hstamp : stamp ∈ rq.build_stamps
        · simp [hstamp, pure, bind, Except.bind, Except.pure, Except.map]
        · simp [hstamp, pure, bind, Except.bind, Except.pure, Except.map]

/-- What the rule asks of a call. -/
structure Chooses (rqdata : RunQueueData) (rq : RunQueue) (running order : List TaskId)
    (s : RunQueueScheduler) : Prop where
  returns : ∃ answer, (next_buildable_task rqdata rq running order s).1 = .ok answer
  eligible : ∀ tid, (next_buildable_task rqdata rq running order s).1 = .ok (some tid) →
    Eligible rqdata rq s tid
  least : ∀ tid, (next_buildable_task rqdata rq running order s).1 = .ok (some tid) →
    ∀ other, Eligible rqdata rq s other → (priority s.prio_map).idxOf tid ≤ (priority s.prio_map).idxOf other
  complete : (next_buildable_task rqdata rq running order s).1 = .ok none → ¬Pressured rq →
    ∀ tid, ¬Eligible rqdata rq s tid
  agrees : ∀ tid, order = [tid] → ∀ rev : OrderedDict TaskId Nat, (∃ prio, rev.get? tid = some prio) →
    (fast_path rq (started rqdata rq running s) (skips rqdata running s) tid).map Option.join =
      best_of rq { started rqdata rq running s with rev_prio_map := rev } (skips rqdata running s) [tid]

/-- Nothing is asked of the map of the basic scheduler, every limit that counts can be read, and no task
that a limit of zero rules out comes first. -/
def Picks (rqdata : RunQueueData) (kind : Kind) (rq : RunQueue) (s : RunQueueScheduler) : Prop :=
  (kind = .basic → ∃ tid, candidates rq s = {tid} ∧
    (LimitReached rqdata rq tid ∨ rqdata.stampfile tid ∉ rq.build_stamps)) ∧
  (∀ tid ∈ candidates rq s, Readable rqdata rq tid) ∧
  ∀ tid ∈ candidates rq s, rqdata.stampfile tid ∉ rq.build_stamps → active_of rq tid.taskname = 0 →
    (∃ n, limit rqdata tid.taskname = some n ∧ n ≤ 0) →
    ∃ other, Eligible rqdata rq s other ∧
      (priority s.prio_map).idxOf other < (priority s.prio_map).idxOf tid

structure Answered (rqdata : RunQueueData) (rq : RunQueue) (s : RunQueueScheduler) (answer : Option TaskId) :
    Prop where
  startable : ∀ tid, answer = some tid → Startable rqdata rq s tid ∧ ∀ other, Startable rqdata rq s other →
    (priority s.prio_map).idxOf tid ≤ (priority s.prio_map).idxOf other
  none : answer = none → ∀ tid, ¬Startable rqdata rq s tid

section
variable {rqdata : RunQueueData} {kind : Kind} {rq : RunQueue} {s : RunQueueScheduler}
  {running order : List TaskId}

theorem known_of_readable (h : Sound rqdata kind s) (hrunning : Meets running (rq.runq_running \ rq.runq_complete))
    {tid : TaskId} (htid : tid ∈ candidates rq s) (hreadable : Readable rqdata rq tid) :
    Known rqdata rq (started rqdata rq running s) (skips rqdata running s) tid :=
  ⟨(limit_reached_eq hrunning (counted h running) tid).1 hreadable,
    stamps_get (h.counted rq running) (h.buildable tid (mem_candidates.mp htid).1)⟩

theorem mem_order (horder : Meets order (candidates rq s)) {tid : TaskId} :
    tid ∈ order ↔ tid ∈ candidates rq s := by
  rw [← horder.2, List.mem_toFinset]

theorem next_spec (h : Sound rqdata kind s) (hrunning : Meets running (rq.runq_running \ rq.runq_complete))
    (horder : Meets order (candidates rq s)) (hpressure : ¬Pressured rq)
    (hbasic : kind = .basic → ∃ tid, candidates rq s = {tid} ∧
      (LimitReached rqdata rq tid ∨ rqdata.stampfile tid ∉ rq.build_stamps))
    (hreadable : ∀ tid ∈ candidates rq s, Readable rqdata rq tid) :
    ∃ answer, (next_buildable_task rqdata rq running order s).1 = .ok answer ∧ Answered rqdata rq s answer := by
  have hknown : ∀ tid ∈ order, Known rqdata rq (started rqdata rq running s) (skips rqdata running s) tid := by
    intro tid htid
    rw [mem_order horder] at htid
    exact known_of_readable h hrunning htid (hreadable tid htid)
  match order, horder with
  | [], horder =>
    refine ⟨none, next_nil rqdata rq running s, ⟨by simp, fun _ tid hstart => ?_⟩⟩
    have := (mem_order horder).mpr hstart.1
    simp at this
  | [tid], horder =>
    have hmem : tid ∈ candidates rq s := (mem_order horder).mp List.mem_cons_self
    have honly : ∀ other, Startable rqdata rq s other → other = tid := by
      intro other hother
      simpa using (mem_order horder).mpr hother.1
    have hfast := fast_path_eq (hknown tid List.mem_cons_self)
    rw [next_single hpressure]
    by_cases hlimit : LimitReached rqdata rq tid
    · rw [hfast.1 hlimit]
      refine ⟨none, rfl, ⟨by simp, fun _ other hother => ?_⟩⟩
      rw [honly other hother] at hother
      exact hother.2.1 hlimit
    by_cases hstamp : rqdata.stampfile tid ∈ rq.build_stamps
    · rw [hfast.2.2 hlimit hstamp]
      have hkind : kind ≠ .basic := by
        intro hkind
        obtain ⟨other, hsingle, hother⟩ := hbasic hkind
        have hsame : tid = other := by simpa [hsingle] using hmem
        subst hsame
        rcases hother with hother | hother
        · exact hlimit hother
        · exact hother hstamp
      obtain ⟨rev, _, hsearch⟩ := search_tasks (h.counted rq running) hkind rq (skips rqdata running s) []
      refine ⟨none, hsearch.trans rfl, ⟨by simp, fun _ other hother => ?_⟩⟩
      rw [honly other hother] at hother
      exact hother.2.2 hstamp
    · rw [hfast.2.1 ⟨hlimit, hstamp⟩]
      refine ⟨some tid, rfl, ⟨fun other heq => ?_, by simp⟩⟩
      obtain rfl := Option.some.inj heq
      exact ⟨⟨hmem, hlimit, hstamp⟩, fun other hother => by rw [honly other hother]⟩
  | a :: b :: rest, horder =>
    have hkind : kind ≠ .basic := by
      intro hkind
      obtain ⟨tid, hsingle, _⟩ := hbasic hkind
      have ha : a = tid := by simpa [hsingle] using (mem_order horder).mp List.mem_cons_self
      have hb : b = tid := by
        simpa [hsingle] using (mem_order horder).mp (List.mem_cons_of_mem a List.mem_cons_self)
      have hnodup := horder.1
      rw [ha, hb] at hnodup
      simp at hnodup
    obtain ⟨rev, hrev, hsearch⟩ := search_tasks (h.counted rq running) hkind rq (skips rqdata running s)
      (a :: b :: rest)
    have hprio : ∀ tid ∈ a :: b :: rest,
        rev.get? tid = some ((priority s.prio_map).idxOf tid) := by
      intro tid htid
      rw [h.prio_map]
      exact hrev tid (h.buildable tid (mem_candidates.mp ((mem_order horder).mp htid)).1)
    have hknown' : ∀ tid ∈ a :: b :: rest, Known rqdata rq
        { started rqdata rq running s with rev_prio_map := rev } (skips rqdata running s) tid :=
      fun tid htid => ⟨(hknown tid htid).limit, (hknown tid htid).stamp⟩
    obtain ⟨answer, hanswer, hsome, hnone⟩ := best_of_spec _ hknown' hprio
    rw [next_many hpressure running (by simp)]
    refine ⟨answer, hsearch.trans hanswer, ⟨fun tid htid => ?_, fun hn tid hstart => ?_⟩⟩
    · obtain ⟨hmem, hfree, hleast⟩ := hsome tid htid
      exact ⟨⟨(mem_order horder).mp hmem, hfree.1, hfree.2⟩,
        fun other hother => hleast other ((mem_order horder).mpr hother.1) hother.2⟩
    · exact hnone hn tid ((mem_order horder).mpr hstart.1) hstart.2

theorem next_unreadable (h : Sound rqdata kind s) (hrunning : Meets running (rq.runq_running \ rq.runq_complete))
    (hpressure : ¬Pressured rq) {tid : TaskId} (htid : tid ∈ candidates rq s)
    (hreadable : ¬Readable rqdata rq tid) (rest : List TaskId) :
    (next_buildable_task rqdata rq running (tid :: rest) s).1 = .error .value_error := by
  have hlimit : limit_reached (started rqdata rq running s).skip_maxthread (skips rqdata running s) tid.taskname =
      .error .value_error := (limit_reached_eq hrunning (counted h running) tid).2 hreadable
  have hentry := h.buildable tid (mem_candidates.mp htid).1
  cases rest with
  | nil =>
    have hfast : fast_path rq (started rqdata rq running s) (skips rqdata running s) tid =
        .error .value_error := by
      rw [fast_path, hlimit]
      rfl
    rw [next_single hpressure, hfast]
  | cons other rest =>
    rw [next_many hpressure running (by simp)]
    by_cases hkind : kind = .basic
    · subst hkind
      exact search_basic (h.counted rq running) (List.ne_nil_of_mem hentry) rq _ _
    · obtain ⟨rev, hrev, hsearch⟩ := search_tasks (h.counted rq running) hkind rq (skips rqdata running s)
        (tid :: other :: rest)
      have hfirst := @best_of_unreadable rq { started rqdata rq running s with rev_prio_map := rev }
        (skips rqdata running s) tid hlimit _ (hrev tid hentry) (other :: rest)
      exact hsearch.trans hfirst

theorem next_basic (h : Sound rqdata .basic s) (hrunning : Meets running (rq.runq_running \ rq.runq_complete))
    (horder : Meets order (candidates rq s)) (hpressure : ¬Pressured rq) (hne : order ≠ [])
    (hreadable : ∀ tid ∈ candidates rq s, Readable rqdata rq tid) {answer : Option TaskId}
    (hanswer : (next_buildable_task rqdata rq running order s).1 = .ok answer) :
    ∃ tid, candidates rq s = {tid} ∧ (LimitReached rqdata rq tid ∨ rqdata.stampfile tid ∉ rq.build_stamps) := by
  match order, horder with
  | [], _ => exact absurd rfl hne
  | [tid], horder =>
    have hsingle : candidates rq s = {tid} := by rw [← horder.2, List.toFinset_cons, List.toFinset_nil]; rfl
    have hmem : tid ∈ candidates rq s := (mem_order horder).mp List.mem_cons_self
    have hentry := h.buildable tid (mem_candidates.mp hmem).1
    refine ⟨tid, hsingle, ?_⟩
    by_contra hnot
    rw [not_or, not_not] at hnot
    have hfast := fast_path_eq (known_of_readable h hrunning hmem (hreadable tid hmem))
    rw [next_single hpressure, hfast.2.2 hnot.1 hnot.2] at hanswer
    have herror := search_basic (h.counted rq running) (List.ne_nil_of_mem hentry) rq (skips rqdata running s) []
    cases hanswer.symm.trans herror
  | a :: b :: rest, horder =>
    have hmem : a ∈ candidates rq s := (mem_order horder).mp List.mem_cons_self
    have hentry := h.buildable a (mem_candidates.mp hmem).1
    rw [next_many hpressure running (by simp)] at hanswer
    have herror := search_basic (h.counted rq running) (List.ne_nil_of_mem hentry) rq (skips rqdata running s)
      (a :: b :: rest)
    cases hanswer.symm.trans herror

theorem meets_toList (tasks : Finset TaskId) : Meets tasks.toList tasks :=
  ⟨tasks.nodup_toList, tasks.toList_toFinset⟩

theorem meets_first {tasks : Finset TaskId} {tid : TaskId} (h : tid ∈ tasks) :
    Meets (tid :: (tasks.erase tid).toList) tasks := by
  constructor
  · rw [List.nodup_cons]
    exact ⟨by simp, (tasks.erase tid).nodup_toList⟩
  · rw [List.toFinset_cons, Finset.toList_toFinset, Finset.insert_erase h]

theorem chooses_of_answered {answer : Option TaskId}
    (hanswer : (next_buildable_task rqdata rq running order s).1 = .ok answer)
    (hanswered : Answered rqdata rq s answer)
    (hzero : ∀ tid ∈ candidates rq s, rqdata.stampfile tid ∉ rq.build_stamps →
      active_of rq tid.taskname = 0 → (∃ n, limit rqdata tid.taskname = some n ∧ n ≤ 0) →
      ∃ other, Eligible rqdata rq s other ∧
        (priority s.prio_map).idxOf other < (priority s.prio_map).idxOf tid) :
    Chooses rqdata rq running order s := by
  have hsome : ∀ tid, (next_buildable_task rqdata rq running order s).1 = .ok (some tid) → answer = some tid :=
    fun tid h => Except.ok.inj (hanswer.symm.trans h)
  refine ⟨⟨answer, hanswer⟩, fun tid h => ?_, fun tid h other hother => ?_, fun h _ tid heligible => ?_,
    fun tid _ rev ⟨_, hprio⟩ => fast_path_agrees rq _ _ tid rev hprio⟩
  · obtain ⟨hstart, hleast⟩ := hanswered.startable tid (hsome tid h)
    rw [eligible_iff]
    refine ⟨hstart, fun ⟨hactive, hlimit⟩ => ?_⟩
    obtain ⟨other, hother, hlt⟩ := hzero tid hstart.1 hstart.2.2 hactive hlimit
    have hle := hleast other (eligible_iff.mp hother).1
    omega
  · exact (hanswered.startable tid (hsome tid h)).2 other (eligible_iff.mp hother).1
  · exact hanswered.none (Except.ok.inj (hanswer.symm.trans h)) tid (eligible_iff.mp heligible).1

theorem chooses_of_pressured (hpressure : Pressured rq) : Chooses rqdata rq running order s := by
  have hanswer : (next_buildable_task rqdata rq running order s).1 = .ok none :=
    next_pressured hpressure running order s
  refine ⟨⟨none, hanswer⟩, fun tid hsome => ?_, fun tid hsome => ?_, fun _ hnot => absurd hpressure hnot,
    fun tid _ rev ⟨_, hprio⟩ => fast_path_agrees rq _ _ tid rev hprio⟩
  · cases hanswer.symm.trans hsome
  · cases hanswer.symm.trans hsome

theorem chooses_iff_picks (h : Reached rqdata kind s) :
    (∀ running order, Meets running (rq.runq_running \ rq.runq_complete) → Meets order (candidates rq s) →
      Chooses rqdata rq running order s) ↔
      Pressured rq ∨ candidates rq s = ∅ ∨ Picks rqdata kind rq s := by
  have hsound := reached_sound h
  constructor
  · intro hrule
    by_cases hpressure : Pressured rq
    · exact Or.inl hpressure
    by_cases hempty : candidates rq s = ∅
    · exact Or.inr (Or.inl hempty)
    have hrunning := meets_toList (rq.runq_running \ rq.runq_complete)
    have horder := meets_toList (candidates rq s)
    obtain ⟨answer, hanswer⟩ := (hrule _ _ hrunning horder).returns
    have hreadable : ∀ tid ∈ candidates rq s, Readable rqdata rq tid := by
      intro tid htid
      by_contra hnot
      obtain ⟨other, hother⟩ := (hrule _ _ hrunning (meets_first htid)).returns
      rw [next_unreadable hsound hrunning hpressure htid hnot] at hother
      cases hother
    have hbasic : kind = .basic → ∃ tid, candidates rq s = {tid} ∧
        (LimitReached rqdata rq tid ∨ rqdata.stampfile tid ∉ rq.build_stamps) := by
      rintro rfl
      have hne : (candidates rq s).toList ≠ [] := by simpa using hempty
      exact next_basic hsound hrunning horder hpressure hne hreadable hanswer
    refine Or.inr (Or.inr ⟨hbasic, hreadable, fun tid htid hstamp hactive hlimit => ?_⟩)
    obtain ⟨_, hspec, hanswered⟩ := next_spec hsound hrunning horder hpressure hbasic hreadable
    obtain rfl := Except.ok.inj (hanswer.symm.trans hspec)
    have hstart : Startable rqdata rq s tid := ⟨htid, fun hreached => hreached.1 hactive, hstamp⟩
    cases answer with
    | none => exact absurd hstart (hanswered.none rfl tid)
    | some best =>
      have hbest := (hrule _ _ hrunning horder).eligible best hanswer
      have hle := (hanswered.startable best rfl).2 tid hstart
      refine ⟨best, hbest, lt_of_le_of_ne hle fun heq => ?_⟩
      have hmem : best ∈ priority s.prio_map := by
        rw [hsound.prio_map]
        exact (priority_perm rqdata kind).mem_iff.mpr (hsound.buildable best hbest.buildable)
      have hsame : best = tid := (List.idxOf_inj hmem).mp heq
      subst hsame
      exact (eligible_iff.mp hbest).2 ⟨hactive, hlimit⟩
  · intro hcond running order hrunning horder
    by_cases hpressure : Pressured rq
    · exact chooses_of_pressured hpressure
    rcases hcond with hpressed | hempty | ⟨hbasic, hreadable, hzero⟩
    · exact absurd hpressed hpressure
    · have hnil : order = [] := by
        rw [← List.toFinset_eq_empty_iff, horder.2, hempty]
      subst hnil
      refine chooses_of_answered (next_nil rqdata rq running s) ⟨by simp, fun _ tid hstart => ?_⟩ (by simp [hempty])
      have hmem := hstart.1
      rw [hempty] at hmem
      simp at hmem
    · obtain ⟨answer, hanswer, hanswered⟩ := next_spec hsound hrunning horder hpressure hbasic hreadable
      exact chooses_of_answered hanswer hanswered hzero

end

def two_tasks : RunQueueData where
  runtaskentries := [⟨text "A", text "do_fetch"⟩, ⟨text "A", text "do_unpack"⟩]
  nodup := by decide
  weight := fun tid => if tid.taskname = text "do_fetch" then 11 else 10
  stampfile := fun tid => tid.taskname
  number_threads := fun _ => none

def all_covered : RunQueue where
  runq_running := ∅
  runq_complete := ∅
  holdoff_tasks := ∅
  tasks_covered := ∅
  tasks_notcovered := two_tasks.runtaskentries.toFinset
  build_stamps := []
  active := 0
  exceeds_max_pressure := false

theorem two_tasks_candidates (kind : Kind) :
    candidates all_covered (init two_tasks kind two_tasks.runtaskentries.toFinset) =
      two_tasks.runtaskentries.toFinset := by
  have hbuildable : (init two_tasks kind two_tasks.runtaskentries.toFinset).buildable =
      two_tasks.runtaskentries.toFinset := Finset.inter_self _
  unfold candidates
  rw [hbuildable]
  decide

theorem the_completion_scheduler_chooses :
    Chooses two_tasks all_covered [] two_tasks.runtaskentries
      (init two_tasks .completion two_tasks.runtaskentries.toFinset) := by
  have hpicks : Picks two_tasks .completion all_covered
      (init two_tasks .completion two_tasks.runtaskentries.toFinset) := by
    refine ⟨?_, ?_, ?_⟩
    · intro h
      cases h
    · intro tid _ _ flag h
      cases h
    · rintro tid _ _ _ ⟨n, h, _⟩
      cases h
  have hchooses := (chooses_iff_picks (Reached.init two_tasks.runtaskentries.toFinset)).mpr (Or.inr (Or.inr hpicks))
  exact hchooses [] _ ⟨List.nodup_nil, by rfl⟩ ⟨two_tasks.nodup, (two_tasks_candidates .completion).symm⟩

/-- The basic scheduler is asked for one of two tasks. -/
theorem the_basic_scheduler_finds_no_task :
    let s := init two_tasks .basic two_tasks.runtaskentries.toFinset
    Reached two_tasks .basic s ∧ Meets [] (all_covered.runq_running \ all_covered.runq_complete) ∧
      Meets two_tasks.runtaskentries (candidates all_covered s) ∧
      (next_buildable_task two_tasks all_covered [] two_tasks.runtaskentries s).1 = .error .value_error ∧
      ¬Chooses two_tasks all_covered [] two_tasks.runtaskentries s := by
  have herror : (next_buildable_task two_tasks all_covered [] two_tasks.runtaskentries
      (init two_tasks .basic two_tasks.runtaskentries.toFinset)).1 = .error .value_error := by rfl
  refine ⟨Reached.init _, ⟨List.nodup_nil, by rfl⟩, ⟨two_tasks.nodup, (two_tasks_candidates .basic).symm⟩, herror,
    fun h => ?_⟩
  obtain ⟨answer, hanswer⟩ := h.returns
  cases herror.symm.trans hanswer

end yocto.schedulers
