-- Which tasks are kept (runqueue.py, steps B and C of `prepare`). The targets mark what they
-- need.
import Yocto.RunTaskEntries

open yocto.task_ids yocto.ordered_dict yocto.frontier yocto.run_task_entries

namespace yocto.task_pruning

/-! ## The targets -/

structure Target where
  mc : Text
  target : Text
  task : Text
  fn : Text

/-- What the pruning reads of the `taskData` of a multiconfig. -/
structure TaskData where
  build_targets : OrderedDict Text (List Text)
  failed_deps : List Text
  failed_fns : List Text
  taskentries : List Text

/-- The resolved entries, one for each task of each multiconfig at least. -/
structure RunQueueData extends Resolved where
  taskData : OrderedDict Text TaskData
  tasks : ∀ mc data, taskData.get? mc = some data → ∀ tid ∈ data.taskentries, tid ∈ keys entries

/-- How the preparation ends early: a multiconfig or a task that does not exist, a selection that is
empty, or a recursion that does not end. -/
inductive Fault where
  | key_error
  | no_such_task (task target tid : Text)
  | no_runall_tasks
  | no_runonly_tasks
  | stuck
  deriving DecidableEq

def mark_active (turns : Nat) (entries : Entries) (runq_build : List Text) (tids : List Text) :
    Option (List Text) := tids.foldlM (mark entries.get? turns) runq_build

def orStuck {α : Type} : Option α → Except Fault α
  | none => .error .stuck
  | some a => .ok a

/-- What is marked for a target: nothing, its task, or what its task depends on. -/
def target_tids (d : RunQueueData) (t : Target) : Except Fault (List Text) :=
  match d.taskData.get? t.mc with
  | none => .error .key_error
  | some data =>
    if (data.build_targets.get? t.target).getD [] = [] then .ok []
    else if t.target ∈ data.failed_deps then .ok []
    else
      let parents := t.task.getLast? = some '-'
      let task := if parents then t.task.dropLast else t.task
      if t.fn ∈ data.failed_fns then .ok []
      else
        let tid := tid_of t.fn task
        if tid ∉ data.taskentries then .error (.no_such_task task t.target tid)
        else if parents then .ok ((d.entries.get? tid).getD [])
        else .ok [tid]

def mark_targets (turns : Nat) (d : RunQueueData) (targets : List Target) : Except Fault (List Text) :=
  targets.foldlM (fun runq_build t => do
    let tids ← target_tids d t
    orStuck (mark_active turns d.entries runq_build tids)) []

/-! ## The selections -/

/-- `"do_{0}".format(task)`, unless the name begins with it. -/
def do_name (task : TaskName) : Text := if text "do_" <+: task.1 then task.1 else text "do_" ++ task.1

/-- The tasks of one name in the recipes of some tasks. -/
def wanted (entries : Entries) (reduced_tasklist : List Text) (task : TaskName) : List Text :=
  (reduced_tasklist.map fun tid => tid_of (fn_from_tid tid) (do_name task)).filter fun wanttid =>
    decide (wanttid ∈ keys entries)

/-- One turn of the `runall` loop: `runall_tids` and the new `runq_build`. -/
def runall_round (turns : Nat) (entries : Entries) (runall : List TaskName) (reduced_tasklist : List Text) :
    Option (List Text × List Text) :=
  runall.foldlM (fun acc task => do
    let runall_tids := acc.1 ∪ wanted entries reduced_tasklist task
    let runq_build ← mark_active turns entries acc.2 runall_tids
    pure (runall_tids, runq_build)) ([], [])

/-- The `runall` loop, for a number of rounds. -/
def runall_loop (turns : Nat) (entries : Entries) (runall : List TaskName) :
    Nat → List Text → List Text → Option (List Text)
  | 0, _, _ => none
  | rounds + 1, orig, runq_build => do
    let reduced_tasklist := (keys entries).filter fun tid => decide (tid ∈ runq_build)
    let next ← runall_round turns entries runall reduced_tasklist
    if next.1.all fun tid => decide (tid ∈ orig) then some next.2
    else runall_loop turns entries runall rounds next.1 next.2

def prune (entries : Entries) (runq_build : List Text) : Entries :=
  entries.filter fun x => decide (x.1 ∈ runq_build)

def runonly_tids (entries : Entries) (task : TaskName) : List Text :=
  (keys entries).filter fun tid => decide (taskname_from_tid tid = do_name task)

def handle_runall (turns : Nat) (entries : Entries) (runall : List TaskName) (runq_build : List Text) :
    Except Fault (List Text) :=
  if runall = [] then .ok runq_build else orStuck (runall_loop turns entries runall turns [] runq_build)

def handle_runonly (turns : Nat) (entries : Entries) (runonly : List TaskName) : Except Fault Entries :=
  if runonly = [] then .ok entries
  else do
    let runq_build ← orStuck (runonly.foldlM
      (fun runq_build task => mark_active turns entries runq_build (runonly_tids entries task)) [])
    let entries := prune entries runq_build
    if entries = [] then .error .no_runonly_tasks else .ok entries

def prepare (turns : Nat) (d : RunQueueData) (targets : List Target) (runall runonly : List TaskName) :
    Except Fault Entries := do
  let runq_build ← mark_targets turns d targets
  let runq_build ← handle_runall turns d.entries runall runq_build
  let entries := prune d.entries runq_build
  if runall ≠ [] ∧ entries = [] then .error .no_runall_tasks else handle_runonly turns entries runonly

/-! ## What is kept -/

/-- A target needs the task. -/
def FromTargets (d : RunQueueData) (targets : List Target) (tid : Text) : Prop :=
  ∃ t ∈ targets, ∃ tids, target_tids d t = .ok tids ∧
    ∃ s ∈ tids, Relation.ReflTransGen (Depends d.entries) s tid

/-- The task is one of those named, in a recipe of an active task. -/
def Wanted (d : RunQueueData) (runall : List TaskName) (active : Text → Prop) (r : Text) : Prop :=
  r ∈ keys d.entries ∧ ∃ tid, active tid ∧ ∃ task ∈ runall, r = tid_of (fn_from_tid tid) (do_name task)

/-- The tasks before `--runonly`: what the targets need, or else the named tasks of all recipes among
the tasks themselves and among what the targets need, with all that these named tasks need. -/
structure Selected (d : RunQueueData) (targets : List Target) (runall : List TaskName) (active : Text → Prop) :
    Prop where
  needed : runall = [] → ∀ tid, active tid ↔ FromTargets d targets tid
  requested : runall ≠ [] → ∀ tid, active tid ↔
    ∃ r, Wanted d runall active r ∧ Relation.ReflTransGen (Depends d.entries) r tid
  covers : runall ≠ [] → ∀ r, Wanted d runall (FromTargets d targets) r → active r

structure Pruned (d : RunQueueData) (targets : List Target) (runall runonly : List TaskName) (result : Entries) :
    Prop where
  sub : ∀ x ∈ result, x ∈ d.entries
  closed : ∀ x ∈ result, ∀ dep ∈ x.2, dep ∈ keys result
  selected : ∃ active, Selected d targets runall active ∧ ∀ tid, tid ∈ keys result ↔
    if runonly = [] then active tid
    else ∃ t, active t ∧ (∃ task ∈ runonly, taskname_from_tid t = do_name task) ∧
      Relation.ReflTransGen (Depends d.entries) t tid

/-! ## The marks -/

section
variable {d : RunQueueData}

theorem world (d : RunQueueData) : World d.entries.get? (keys d.entries) := depends_closed d.closed

theorem closure_congr {entries : Entries} {starts starts' marked : List Text}
    (h : IsClosure entries.get? (keys entries) starts marked) (hsame : ∀ x, x ∈ starts ↔ x ∈ starts') :
    IsClosure entries.get? (keys entries) starts' marked := by
  refine ⟨h.nodup, h.inside, fun x => ?_⟩
  rw [h.mem_iff]
  simp only [hsame]

theorem depth_lt {entries : Entries} {turns : Nat} (h : entries.length + 1 < turns) :
    (keys entries).length < turns := by
  rw [keys, List.length_map]
  omega

theorem target_tids_cases (d : RunQueueData) (t : Target) :
    (∃ fault, target_tids d t = .error fault ∧ fault ≠ .stuck) ∨
      ∃ tids, target_tids d t = .ok tids ∧ ∀ s ∈ tids, s ∈ keys d.entries := by
  have hnone : ∃ tids, (Except.ok [] : Except Fault (List Text)) = .ok tids ∧ ∀ s ∈ tids, s ∈ keys d.entries :=
    ⟨[], rfl, by simp⟩
  unfold target_tids
  cases hdata : d.taskData.get? t.mc with
  | none => exact Or.inl ⟨.key_error, rfl, by simp⟩
  | some data =>
    dsimp only
    by_cases hbuild : (data.build_targets.get? t.target).getD [] = []
    · rw [if_pos hbuild]
      exact Or.inr hnone
    rw [if_neg hbuild]
    by_cases hfailed : t.target ∈ data.failed_deps
    · rw [if_pos hfailed]
      exact Or.inr hnone
    rw [if_neg hfailed]
    by_cases hfn : t.fn ∈ data.failed_fns
    · rw [if_pos hfn]
      exact Or.inr hnone
    rw [if_neg hfn]
    obtain ⟨task, htask⟩ : ∃ task, task = if t.task.getLast? = some '-' then t.task.dropLast else t.task := ⟨_, rfl⟩
    rw [← htask]
    by_cases hmem : tid_of t.fn task ∈ data.taskentries
    · rw [if_neg (not_not.mpr hmem)]
      have hentry := d.tasks t.mc data hdata _ hmem
      by_cases hparents : t.task.getLast? = some '-'
      · rw [if_pos hparents]
        obtain ⟨deps, hdeps⟩ := OrderedDict.get?_of_key hentry
        refine Or.inr ⟨_, rfl, fun s hs => ?_⟩
        rw [hdeps, Option.getD_some] at hs
        exact d.closed _ (OrderedDict.mem_of_get? hdeps) s hs
      · rw [if_neg hparents]
        refine Or.inr ⟨_, rfl, fun s hs => ?_⟩
        rwa [List.mem_singleton.mp hs]
    · rw [if_pos hmem]
      exact Or.inl ⟨_, rfl, by simp⟩

theorem mark_targets_spec {turns : Nat} (hturns : d.entries.length + 1 < turns) (targets : List Target) :
    mark_targets turns d targets ≠ .error .stuck ∧ ∀ runq_build, mark_targets turns d targets = .ok runq_build →
      ∃ starts, IsClosure d.entries.get? (keys d.entries) starts runq_build ∧
        ∀ s, s ∈ starts ↔ ∃ t ∈ targets, ∃ tids, target_tids d t = .ok tids ∧ s ∈ tids := by
  unfold mark_targets
  induction targets using List.reverseRecOn with
  | nil =>
    refine ⟨fun h => (by cases h), fun runq_build h => ?_⟩
    cases h
    exact ⟨[], IsClosure.nil, by simp⟩
  | append_singleton targets t ih =>
    rw [List.foldlM_append]
    cases hinit : targets.foldlM (fun runq_build t => do
        let tids ← target_tids d t
        orStuck (mark_active turns d.entries runq_build tids)) [] with
    | error fault =>
      rw [hinit] at ih
      refine ⟨fun h => ih.1 ?_, fun _ h => (by cases h)⟩
      cases h
      rfl
    | ok runq_build =>
      obtain ⟨starts, hclosure, hstarts⟩ := ih.2 runq_build hinit
      rcases target_tids_cases d t with ⟨fault, htids, hfault⟩ | ⟨tids, htids, hinside⟩
      · have hrun : (Except.ok runq_build >>= fun init => List.foldlM (fun runq_build t => do
            let tids ← target_tids d t
            orStuck (mark_active turns d.entries runq_build tids)) init [t]) =
              (.error fault : Except Fault (List Text)) := by
          simp [htids, bind, Except.bind]
        rw [hrun]
        refine ⟨fun h => ?_, fun _ h => (by cases h)⟩
        cases h
        exact hfault rfl
      · obtain ⟨marked, hmarked, hclosure'⟩ := hclosure.mark (world d) (depth_lt hturns) tids hinside
        have hrun : (Except.ok runq_build >>= fun init => List.foldlM (fun runq_build t => do
            let tids ← target_tids d t
            orStuck (mark_active turns d.entries runq_build tids)) init [t]) =
              (.ok marked : Except Fault (List Text)) := by
          simp [htids, bind, Except.bind, mark_active, hmarked, orStuck, pure, Except.pure]
        rw [hrun]
        refine ⟨fun h => (by cases h), fun runq_build' h => ?_⟩
        cases h
        refine ⟨starts ++ tids, hclosure', fun s => ?_⟩
        rw [List.mem_append, hstarts]
        constructor
        · rintro (⟨t', ht', tids', htids', hs⟩ | hs)
          · exact ⟨t', List.mem_append_left _ ht', tids', htids', hs⟩
          · exact ⟨t, by simp, tids, htids, hs⟩
        · rintro ⟨t', ht', tids', htids', hs⟩
          rcases List.mem_append.mp ht' with ht' | ht'
          · exact Or.inl ⟨t', ht', tids', htids', hs⟩
          · rw [List.mem_singleton.mp ht', htids] at htids'
            cases htids'
            exact Or.inr hs

/-! ## The rounds -/

theorem mem_wanted {entries : Entries} {reduced_tasklist : List Text} {task : TaskName} {r : Text} :
    r ∈ wanted entries reduced_tasklist task ↔
      r ∈ keys entries ∧ ∃ tid ∈ reduced_tasklist, r = tid_of (fn_from_tid tid) (do_name task) := by
  simp only [wanted, List.mem_filter, List.mem_map, decide_eq_true_eq]
  constructor
  · rintro ⟨⟨tid, htid, rfl⟩, hkey⟩
    exact ⟨hkey, tid, htid, rfl⟩
  · rintro ⟨hkey, tid, htid, rfl⟩
    exact ⟨⟨tid, htid, rfl⟩, hkey⟩

theorem runall_round_spec {turns : Nat} (hturns : d.entries.length + 1 < turns) (runall : List TaskName)
    (reduced_tasklist : List Text) :
    ∃ tids runq_build, runall_round turns d.entries runall reduced_tasklist = some (tids, runq_build) ∧
      IsClosure d.entries.get? (keys d.entries) tids runq_build ∧
      ∀ r, r ∈ tids ↔ r ∈ keys d.entries ∧ ∃ tid ∈ reduced_tasklist, ∃ task ∈ runall,
        r = tid_of (fn_from_tid tid) (do_name task) := by
  unfold runall_round
  induction runall using List.reverseRecOn with
  | nil => exact ⟨[], [], rfl, IsClosure.nil, by simp⟩
  | append_singleton runall task ih =>
    obtain ⟨tids, runq_build, hrun, hclosure, hmem⟩ := ih
    have hin : ∀ r ∈ tids ∪ wanted d.entries reduced_tasklist task, r ∈ keys d.entries := by
      intro r hr
      rcases List.mem_union_iff.mp hr with hr | hr
      · exact ((hmem r).mp hr).1
      · exact (mem_wanted.mp hr).1
    obtain ⟨marked, hmarked, hclosure'⟩ := hclosure.mark (world d) (depth_lt hturns) _ hin
    refine ⟨tids ∪ wanted d.entries reduced_tasklist task, marked, ?_, ?_, fun r => ?_⟩
    · rw [List.foldlM_append, hrun]
      simp [mark_active, hmarked]
    · refine closure_congr hclosure' fun x => ?_
      rw [List.mem_append, List.mem_union_iff]
      tauto
    · rw [List.mem_union_iff, hmem, mem_wanted]
      constructor
      · rintro (⟨hkey, tid, htid, task', htask', heq⟩ | ⟨hkey, tid, htid, heq⟩)
        · exact ⟨hkey, tid, htid, task', List.mem_append_left _ htask', heq⟩
        · exact ⟨hkey, tid, htid, task, by simp, heq⟩
      · rintro ⟨hkey, tid, htid, task', htask', heq⟩
        rcases List.mem_append.mp htask' with htask' | htask'
        · exact Or.inl ⟨hkey, tid, htid, task', htask', heq⟩
        · rw [List.mem_singleton.mp htask'] at heq
          exact Or.inr ⟨hkey, tid, htid, heq⟩

theorem do_name_no_colon (task : TaskName) : ':' ∉ do_name task := by
  unfold do_name
  split
  · exact task.2
  · intro h
    rcases List.mem_append.mp h with h | h
    · exact absurd h (by decide)
    · exact task.2 h

theorem Wanted.self {runall : List TaskName} {active active' : Text → Prop} {r : Text}
    (h : Wanted d runall active r) (hactive : active' r) : Wanted d runall active' r := by
  obtain ⟨hkey, tid, _, task, htask, rfl⟩ := h
  refine ⟨hkey, _, hactive, task, htask, ?_⟩
  rw [fn_from_tid_of _ (do_name_no_colon task)]

theorem runall_loop_spec {turns : Nat} (hturns : d.entries.length + 1 < turns) (runall : List TaskName)
    {rounds : Nat} {starts orig runq_build : List Text}
    (hclosure : IsClosure d.entries.get? (keys d.entries) starts runq_build)
    (horig : orig = [] ∨ ∀ r, r ∈ orig ↔ r ∈ starts) (hkept : ∀ r ∈ orig, Wanted d runall (· ∈ runq_build) r)
    (hrounds : ((keys d.entries).toFinset \ orig.toFinset).card < rounds) :
    ∃ result, runall_loop turns d.entries runall rounds orig runq_build = some result ∧
      ∃ tids, IsClosure d.entries.get? (keys d.entries) tids result ∧
        (∀ r, r ∈ tids ↔ Wanted d runall (· ∈ result) r) ∧
        ∀ r, Wanted d runall (· ∈ runq_build) r → r ∈ tids := by
  induction rounds generalizing starts orig runq_build with
  | zero => omega
  | succ rounds ih =>
    obtain ⟨tids, build, hround, hclosure', hmem⟩ := runall_round_spec hturns runall
      ((keys d.entries).filter fun tid => decide (tid ∈ runq_build))
    have hwanted : ∀ r, r ∈ tids ↔ Wanted d runall (· ∈ runq_build) r := by
      intro r
      rw [hmem]
      constructor
      · rintro ⟨hkey, tid, htid, hrest⟩
        exact ⟨hkey, tid, by simpa using (List.mem_filter.mp htid).2, hrest⟩
      · rintro ⟨hkey, tid, htid, hrest⟩
        exact ⟨hkey, tid, List.mem_filter.mpr ⟨hclosure.inside tid htid, by simpa using htid⟩, hrest⟩
    have hbuild : ∀ r ∈ tids, r ∈ build := fun r hr => (hclosure'.mem_iff r).mpr ⟨r, hr, .refl⟩
    have hnext : ∀ r ∈ tids, Wanted d runall (· ∈ build) r :=
      fun r hr => ((hwanted r).mp hr).self (hbuild r hr)
    rw [runall_loop, hround]
    simp only [Option.bind_eq_bind, Option.bind_some]
    by_cases hall : tids.all fun tid => decide (tid ∈ orig)
    · refine ⟨build, if_pos hall, tids, hclosure', fun r => ⟨hnext r, fun h => ?_⟩, fun r h => (hwanted r).mpr h⟩
      have hsub : ∀ r ∈ tids, r ∈ orig := by simpa using hall
      rcases horig with rfl | hsame
      · -- nothing is named, so nothing is active
        obtain ⟨_, tid, htid, _⟩ := h
        obtain ⟨s, hs, _⟩ := (hclosure'.mem_iff tid).mp htid
        cases hsub s hs
      · have hiff : ∀ s, s ∈ tids ↔ s ∈ starts := by
          intro s
          rw [← hsame]
          exact ⟨hsub s, fun hs => (hwanted s).mpr (hkept s hs)⟩
        obtain ⟨hkey, tid, htid, hrest⟩ := h
        refine (hwanted r).mpr ⟨hkey, tid, ?_, hrest⟩
        have hreached := (hclosure'.mem_iff tid).mp htid
        simp only [hiff] at hreached
        exact (hclosure.mem_iff tid).mpr hreached
    · rw [if_neg hall]
      have hgrown : ((keys d.entries).toFinset \ tids.toFinset).card <
          ((keys d.entries).toFinset \ orig.toFinset).card := by
        have hsub : orig.toFinset ⊆ tids.toFinset := by
          intro r hr
          rw [List.mem_toFinset] at hr ⊢
          exact (hwanted r).mpr (hkept r hr)
        obtain ⟨r, hr, hnot⟩ : ∃ r ∈ tids, r ∉ orig := by simpa using hall
        refine Finset.card_lt_card ⟨Finset.sdiff_subset_sdiff Finset.Subset.rfl hsub, fun hback => ?_⟩
        have hmem' : r ∈ (keys d.entries).toFinset \ orig.toFinset := by
          simp [((hmem r).mp hr).1, hnot]
        exact (Finset.mem_sdiff.mp (hback hmem')).2 (List.mem_toFinset.mpr hr)
      obtain ⟨result, hresult, tids', hclosed, hiff, hcovers⟩ :=
        ih hclosure' (Or.inr fun _ => Iff.rfl) hnext (by omega)
      exact ⟨result, hresult, tids', hclosed, hiff, fun r hr => hcovers r (hnext r ((hwanted r).mpr hr))⟩

/-! ## The entries that are left -/

theorem keys_prune {entries : Entries} {runq_build : List Text} {tid : Text} :
    tid ∈ keys (prune entries runq_build) ↔ tid ∈ keys entries ∧ tid ∈ runq_build := by
  simp only [keys, prune, List.mem_map, List.mem_filter, decide_eq_true_eq]
  constructor
  · rintro ⟨x, ⟨hx, hbuild⟩, rfl⟩
    exact ⟨⟨x, hx, rfl⟩, hbuild⟩
  · rintro ⟨⟨x, hx, rfl⟩, hbuild⟩
    exact ⟨x, ⟨hx, hbuild⟩, rfl⟩

theorem depends_prune {entries : Entries} {runq_build : List Text} {a b : Text} :
    Depends (prune entries runq_build) a b ↔ a ∈ runq_build ∧ Depends entries a b := by
  have hget : (prune entries runq_build).get? a = if a ∈ runq_build then entries.get? a else none := by
    have hfilter := OrderedDict.get?_filter entries (fun k => decide (k ∈ runq_build)) a
    simp only [decide_eq_true_eq] at hfilter
    exact hfilter
  unfold Depends Next
  rw [hget]
  by_cases ha : a ∈ runq_build
  · simp [ha]
  · simp [ha]

theorem prune_closed {entries : Entries} (hnodup : (keys entries).Nodup)
    (hclosed : ∀ x ∈ entries, ∀ dep ∈ x.2, dep ∈ keys entries) {runq_build : List Text}
    (hbuild : ∀ a ∈ runq_build, ∀ b, Depends entries a b → b ∈ runq_build) :
    ∀ x ∈ prune entries runq_build, ∀ dep ∈ x.2, dep ∈ keys (prune entries runq_build) := by
  intro x hx dep hdep
  obtain ⟨hmem, hx'⟩ := List.mem_filter.mp hx
  rw [keys_prune]
  exact ⟨hclosed x hmem dep hdep, hbuild x.1 (by simpa using hx') dep ⟨x.2, get?_of_mem hnodup hmem, hdep⟩⟩

theorem prune_nodup {entries : Entries} (hnodup : (keys entries).Nodup) (runq_build : List Text) :
    (keys (prune entries runq_build)).Nodup :=
  hnodup.sublist (List.filter_sublist.map Prod.fst)

theorem reach_prune {entries : Entries} {runq_build : List Text}
    (hbuild : ∀ a ∈ runq_build, ∀ b, Depends entries a b → b ∈ runq_build) {a b : Text} (ha : a ∈ runq_build) :
    Relation.ReflTransGen (Depends (prune entries runq_build)) a b ↔ Relation.ReflTransGen (Depends entries) a b := by
  constructor
  · intro h
    exact h.lift id fun _ _ hstep => (depends_prune.mp hstep).2
  · intro h
    have hreach : b ∈ runq_build ∧ Relation.ReflTransGen (Depends (prune entries runq_build)) a b := by
      induction h with
      | refl => exact ⟨ha, .refl⟩
      | tail _ hstep ih => exact ⟨hbuild _ ih.1 _ hstep, ih.2.tail (depends_prune.mpr ⟨ih.1, hstep⟩)⟩
    exact hreach.2

theorem runonly_marks {entries : Entries} (hworld : World entries.get? (keys entries)) {turns : Nat}
    (hturns : (keys entries).length < turns) (runonly : List TaskName) :
    ∃ runq_build, runonly.foldlM
        (fun runq_build task => mark_active turns entries runq_build (runonly_tids entries task)) [] = some runq_build ∧
      IsClosure entries.get? (keys entries) (runonly.flatMap (runonly_tids entries)) runq_build := by
  induction runonly using List.reverseRecOn with
  | nil => exact ⟨[], rfl, IsClosure.nil⟩
  | append_singleton runonly task ih =>
    obtain ⟨runq_build, hrun, hclosure⟩ := ih
    obtain ⟨marked, hmarked, hclosure'⟩ := hclosure.mark hworld hturns (runonly_tids entries task)
      (fun tid h => (List.mem_filter.mp h).1)
    refine ⟨marked, ?_, ?_⟩
    · rw [List.foldlM_append, hrun]
      simp [mark_active, hmarked]
    · rw [List.flatMap_append]
      simpa using hclosure'

theorem selection {turns : Nat} (hturns : d.entries.length + 1 < turns) (targets : List Target)
    (runall : List TaskName) {starts runq_build : List Text}
    (hclosure : IsClosure d.entries.get? (keys d.entries) starts runq_build)
    (hstarts : ∀ s, s ∈ starts ↔ ∃ t ∈ targets, ∃ tids, target_tids d t = .ok tids ∧ s ∈ tids) :
    ∃ result, handle_runall turns d.entries runall runq_build = .ok result ∧
      (∀ a ∈ result, ∀ b, Depends d.entries a b → b ∈ result) ∧ (∀ a ∈ result, a ∈ keys d.entries) ∧
      Selected d targets runall (· ∈ result) := by
  have htargets : ∀ tid, tid ∈ runq_build ↔ FromTargets d targets tid := by
    intro tid
    rw [hclosure.mem_iff]
    simp only [hstarts]
    constructor
    · rintro ⟨s, ⟨t, ht, tids, htids, hs⟩, hreach⟩
      exact ⟨t, ht, tids, htids, s, hs, hreach⟩
    · rintro ⟨t, ht, tids, htids, s, hs, hreach⟩
      exact ⟨s, ⟨t, ht, tids, htids, hs⟩, hreach⟩
  unfold handle_runall
  by_cases hrunall : runall = []
  · refine ⟨runq_build, if_pos hrunall, fun a ha b hab => hclosure.closed ha hab, hclosure.inside, ?_⟩
    exact ⟨fun _ => htargets, fun h => absurd hrunall h, fun h => absurd hrunall h⟩
  · have hrounds : ((keys d.entries).toFinset \ ([] : List Text).toFinset).card < turns := by
      rw [List.toFinset_nil, Finset.sdiff_empty]
      exact Nat.lt_of_le_of_lt (List.toFinset_card_le _) (depth_lt hturns)
    obtain ⟨result, hresult, tids, hclosed, hiff, hcovers⟩ :=
      runall_loop_spec hturns runall hclosure (Or.inl rfl) (by simp) hrounds
    refine ⟨result, by rw [if_neg hrunall, hresult]; rfl, fun a ha b hab => hclosed.closed ha hab, hclosed.inside, ?_⟩
    refine ⟨fun h => absurd h hrunall, fun _ tid => ?_, fun _ r hr => ?_⟩
    · rw [hclosed.mem_iff]
      simp only [hiff]
      rfl
    · refine (hclosed.mem_iff r).mpr ⟨r, hcovers r ?_, .refl⟩
      obtain ⟨hkey, tid, htid, hrest⟩ := hr
      exact ⟨hkey, tid, (htargets tid).mpr htid, hrest⟩

end

/-- Pruning comes to an end, and what it leaves is closed, has the named tasks and nothing that they do not
need. -/
theorem prepare_prunes (d : RunQueueData) (targets : List Target) (runall runonly : List TaskName) :
    ∀ turns > d.entries.length + 1, prepare turns d targets runall runonly ≠ .error .stuck ∧
      ∀ result, prepare turns d targets runall runonly = .ok result → Pruned d targets runall runonly result := by
  intro turns hturns
  obtain ⟨hends, hmarks⟩ := mark_targets_spec hturns targets
  unfold prepare
  cases htargets : mark_targets turns d targets with
  | error fault =>
    refine ⟨fun h => hends ?_, fun _ h => (by cases h)⟩
    cases h
    exact htargets
  | ok runq_build =>
    obtain ⟨starts, hclosure, hstarts⟩ := hmarks runq_build htargets
    obtain ⟨active, hactive, hclosed, hinside, hselected⟩ := selection hturns targets runall hclosure hstarts
    have hentries := prune_closed d.nodup d.closed hclosed
    simp only [bind, Except.bind, hactive]
    by_cases hempty : runall ≠ [] ∧ prune d.entries active = []
    · rw [if_pos hempty]
      exact ⟨by simp, fun _ h => (by cases h)⟩
    rw [if_neg hempty]
    unfold handle_runonly
    by_cases hrunonly : runonly = []
    · rw [if_pos hrunonly]
      refine ⟨by simp, fun result h => ?_⟩
      cases h
      refine ⟨fun x hx => (List.mem_filter.mp hx).1, hentries, (· ∈ active), hselected, fun tid => ?_⟩
      rw [if_pos hrunonly, keys_prune]
      exact ⟨fun h => h.2, fun h => ⟨hinside tid h, h⟩⟩
    · rw [if_neg hrunonly]
      have hlen : (keys (prune d.entries active)).length < turns := by
        have := (List.filter_sublist (l := d.entries) (p := fun x => decide (x.1 ∈ active))).length_le
        rw [keys, List.length_map, prune]
        omega
      obtain ⟨build, hbuild, hclosure'⟩ := runonly_marks (depends_closed hentries) hlen runonly
      rw [hbuild]
      simp only [orStuck, bind, Except.bind]
      by_cases hnone : prune (prune d.entries active) build = []
      · rw [if_pos hnone]
        exact ⟨by simp, fun _ h => (by cases h)⟩
      · rw [if_neg hnone]
        refine ⟨by simp, fun result h => ?_⟩
        cases h
        refine ⟨fun x hx => (List.mem_filter.mp (List.mem_filter.mp hx).1).1, ?_, (· ∈ active), hselected, fun tid => ?_⟩
        · exact prune_closed (prune_nodup d.nodup active) hentries fun a ha b hab => hclosure'.closed ha hab
        · rw [if_neg hrunonly, keys_prune, hclosure'.mem_iff]
          have hstart : ∀ s, s ∈ runonly.flatMap (runonly_tids (prune d.entries active)) ↔
              s ∈ active ∧ ∃ task ∈ runonly, taskname_from_tid s = do_name task := by
            intro s
            simp only [List.mem_flatMap, runonly_tids, List.mem_filter, keys_prune, decide_eq_true_eq]
            constructor
            · rintro ⟨task, htask, ⟨_, hs⟩, hname⟩
              exact ⟨hs, task, htask, hname⟩
            · rintro ⟨hs, task, htask, hname⟩
              exact ⟨task, htask, ⟨hinside s hs, hs⟩, hname⟩
          simp only [hstart]
          constructor
          · rintro ⟨_, s, ⟨hs, hname⟩, hto⟩
            exact ⟨s, hs, hname, (reach_prune hclosed hs).mp hto⟩
          · rintro ⟨s, hs, hname, hto⟩
            have hstays := (reach_prune hclosed hs).mpr hto
            refine ⟨hclosure'.inside tid ((hclosure'.mem_iff tid).mpr ⟨s, (hstart s).mpr ⟨hs, hname⟩, hstays⟩),
              s, ⟨hs, hname⟩, hstays⟩

def one_recipe : RunQueueData where
  entries := [(text "a:do_build", []), (text "a:do_fetch", [])]
  nodup := by decide
  closed := by simp
  colon := by decide
  taskData := [([], ⟨[(text "a", [text "a"])], [], [], [text "a:do_build", text "a:do_fetch"]⟩)]
  tasks := by
    intro mc data h tid htid
    have hmem := OrderedDict.mem_of_get? h
    rw [List.mem_singleton, Prod.mk.injEq] at hmem
    rw [hmem.2] at htid
    exact htid

def build_target : Target := ⟨[], text "a", text "do_build", text "a"⟩

def fetch : TaskName := ⟨text "fetch", by decide⟩

def build : TaskName := ⟨text "build", by decide⟩

theorem both_tasks_are_pruned_to :
    prepare 4 one_recipe [build_target] [fetch, build] [] ≠ .error .stuck ∧
      Pruned one_recipe [build_target] [fetch, build] [] [(text "a:do_build", []), (text "a:do_fetch", [])] := by
  obtain ⟨hends, hpruned⟩ := prepare_prunes one_recipe [build_target] [fetch, build] [] 4 (by decide)
  exact ⟨hends, hpruned _ (by rfl)⟩

/-- With `--runonly` beside it, a named task of a recipe that is kept is not. -/
theorem runonly_drops_a_task_of_runall :
    prepare 4 one_recipe [build_target] [fetch, build] [build] = .ok [(text "a:do_build", [])] ∧
      ¬∀ result, prepare 4 one_recipe [build_target] [fetch, build] [build] = .ok result →
        ∀ tid ∈ keys result, ∀ task ∈ [fetch, build],
          tid_of (fn_from_tid tid) (do_name task) ∈ keys one_recipe.entries →
            tid_of (fn_from_tid tid) (do_name task) ∈ keys result := by
  have hrun : prepare 4 one_recipe [build_target] [fetch, build] [build] = .ok [(text "a:do_build", [])] := by rfl
  refine ⟨hrun, fun h => ?_⟩
  have hfetch := h _ hrun (text "a:do_build") (by decide) fetch (by simp) (by decide)
  exact absurd hfetch (by decide)

end yocto.task_pruning
